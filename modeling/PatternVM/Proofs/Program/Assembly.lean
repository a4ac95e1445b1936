import Mathlib.Algebra.Group.Nat.Defs
import PatternVM.Program.Assembly
import PatternVM.Proofs.Program.Expansion

/-!
# Assembly

What a program holds that has been assembled by any directives in any order (`program_of_calls`). At each index stands
the instruction that was appended when the program had that size, with its jump led to where the last patch that has
found it leads. As long as all indices stay below 2^31, the 32 bits of an offset do not wrap, so a jump that has been
led somewhere resolves to just that index in the finished program.
-/

namespace PatternVM

namespace Instr

/-- The instruction with its jump led from `pc` to `target`, if it has one. -/
def ledTo (pc target : Nat) (instr : Instr) : Instr := (instr.withOffset? (offsetTo pc target)).getD instr

/-- The instruction with its jump led from `pc` to where it has been led last. -/
def settled (pc : Nat) (instr : Instr) : Option Nat → Instr
  | some target => instr.ledTo pc target
  | none => instr

/-- One instruction is another one with its jump, which it has, led from `pc` to `target`. -/
def Leads (pc target : Nat) (instr instr' : Instr) : Prop :=
  ∃ offset : Int32, offset.toInt = (target : Int) - pc ∧ instr.withOffset? offset = some instr'

end Instr

namespace Program

/-- The instruction that a directive appends to a program of `size` instructions. -/
def Directive.instr? (size : Nat) : Directive → Option Instr
  | emit instr => some instr
  | loopTo target => some (.jumpIfAdvanced (offsetTo size target))
  | _ => none

/-- Where a directive leads a jump. -/
def Directive.target? : Directive → Option Nat
  | loopTo target | patch _ target => some target
  | _ => none

/-- A directive, and the program that it has been given to. -/
structure Call where
  before : Program
  directive : Directive

namespace Call

/-- What a call has answered. -/
def answer (c : Call) : Answer := c.before.answer c.directive

/-- The instruction that a call has appended. -/
def emitted? (c : Call) : Option Instr := c.directive.instr? c.before.size

/-- Where a call has patched the jump at `pc` to. -/
def patchedTo? (pc : Nat) (c : Call) : Option Nat :=
  match c.directive with
  | .patch i target => if i = pc ∧ c.answer = .patched true then some target else none
  | _ => none

/-- Where a call has led the jump at `pc`, be it by a patch or when it was appended. -/
def leadsTo? (pc : Nat) (c : Call) : Option Nat :=
  match c.directive with
  | .loopTo target => if c.before.size = pc then some target else none
  | _ => c.patchedTo? pc

/-- What the last of some calls has set, where `set?` is what a single one sets. -/
def last? (set? : Call → Option Nat) (calls : List Call) : Option Nat := (calls.filterMap set?).getLast?

end Call

/-- The calls by which directives make a program out of `p`. -/
def calls (p : Program) : List Directive → List Call
  | [] => []
  | directive :: rest => ⟨p, directive⟩ :: (p.apply directive).calls rest

/-- The offset of the jump at `pc`, if there is one. -/
def offsetAt? (p : Program) (pc : Nat) : Option Int32 := (p.instr? pc).bind Instr.offset?

end Program

/-! ## Leading jumps -/

namespace Instr

variable {pc target : Nat} {instr : Instr} {offset : Int32}

/-- Another offset can be given to the instructions that have one. -/
lemma isSome_withOffset? : (instr.withOffset? offset).isSome = instr.offset?.isSome := by
  cases instr <;> rfl

/-- An instruction that jumps is led to its target. -/
lemma withOffset?_of_isSome (jumps : instr.offset?.isSome) :
    instr.withOffset? (offsetTo pc target) = some (instr.ledTo pc target) := by
  cases instr <;> first | rfl | cases jumps

/-- Where a jump has been led before is forgotten. -/
lemma ledTo_settled {last : Option Nat} : (instr.settled pc last).ledTo pc target = instr.ledTo pc target := by
  cases last <;> cases instr <;> rfl

/-- Leading an instruction to its last target keeps it an instruction that jumps, or one that does not. -/
lemma isSome_offset?_settled {last : Option Nat} : (instr.settled pc last).offset?.isSome = instr.offset?.isSome := by
  cases last <;> cases instr <;> rfl

/-- An instruction that does not jump cannot be led anywhere. -/
lemma ledTo_of_isNone (stays : instr.offset? = none) : instr.ledTo pc target = instr := by
  cases instr <;> first | rfl | cases stays

end Instr

namespace Program

open Instr Call

variable {p q : Program} {instr : Instr} {pc pc' target target' : Nat} {directive : Directive}
  {directives : List Directive} {id : Nat} {set : ByteSet}

/-- The offset at an index is that of the instruction there. -/
lemma offsetAt?_of_instr? (at_pc : p.instr? pc = some instr) : p.offsetAt? pc = instr.offset? := by
  rw [offsetAt?, at_pc, Option.bind_some]

/-- Where programs have the same instruction they have the same offset. -/
lemma offsetAt?_congr (same : p.instr? pc = q.instr? pc) : p.offsetAt? pc = q.offsetAt? pc :=
  congrArg (Option.bind · Instr.offset?) same

/-- There are offsets within the program only. -/
lemma lt_size_of_offsetAt? (jumps : (p.offsetAt? pc).isSome) : pc < p.size := by
  obtain ⟨offset, eq⟩ := Option.isSome_iff_exists.mp jumps
  obtain ⟨instr, at_pc, _⟩ := Option.bind_eq_some_iff.mp eq
  exact lt_size_of_instr? at_pc

/-! ## Single directives -/

/-- Emitting appends an instruction and leaves the others as they are. -/
lemma instr?_emit : (p.emit instr).instr? pc = if pc = p.size then some instr else p.instr? pc :=
  Array.getElem?_push

/-- Emitting makes a program longer by one. -/
lemma size_emit : (p.emit instr).size = p.size + 1 := Array.size_push ..

/-- There is something to patch exactly where there is an offset. -/
lemma isSome_patched? : (p.patched? pc target).isSome = (p.offsetAt? pc).isSome := by
  rw [patched?, offsetAt?]
  cases p.instr? pc with
  | none => rfl
  | some instr => exact isSome_withOffset?

/-- Where there is no offset a patch changes nothing. -/
lemma patch_of_offsetAt? (stays : p.offsetAt? pc = none) : p.patch pc target = p := by
  rw [patch, (Option.isSome_eq_isSome.mp isSome_patched?).mpr stays]

/-- A patch leads the jump at its index, and touches no other instruction. -/
lemma instr?_patch :
    (p.patch pc target).instr? pc' = if pc' = pc then (p.instr? pc').map (ledTo pc target) else p.instr? pc' := by
  cases patched : p.patched? pc target with
  | none =>
    have stays : p.offsetAt? pc = none := (Option.isSome_eq_isSome.mp isSome_patched?).mp patched
    rw [patch_of_offsetAt? stays]
    split
    case isFalse => rfl
    case isTrue eq =>
      rw [eq]
      cases at_pc : p.instr? pc with
      | none => rfl
      | some instr =>
        rw [offsetAt?_of_instr? at_pc] at stays
        rw [Option.map_some, ledTo_of_isNone stays]
  | some instr' =>
    obtain ⟨instr, at_pc, led⟩ := Option.bind_eq_some_iff.mp patched
    have lt : pc < p.code.size := lt_size_of_instr? at_pc
    rw [patch, patched, instr?, Array.getElem?_setIfInBounds, if_pos lt]
    by_cases eq : pc' = pc
    · rw [if_pos eq.symm, if_pos eq, eq, at_pc, Option.map_some, ledTo, led, Option.getD_some]
    · rw [if_neg (Ne.symm eq), if_neg eq]
      rfl

/-- Patching leaves the size of a program as it is. -/
lemma size_patch : (p.patch pc target).size = p.size := by
  rw [patch]
  split
  · exact Array.size_setIfInBounds
  · rfl

/-- Patching leaves the classes of a program as they are. -/
lemma classes_patch : (p.patch pc target).classes = p.classes := by
  rw [patch]
  split <;> rfl

/-- Patching changes the offset at its index, if there is one, and no other. -/
lemma offsetAt?_patch :
    (p.patch pc target).offsetAt? pc' =
      if pc' = pc then (p.offsetAt? pc').map fun _ => offsetTo pc target else p.offsetAt? pc' := by
  rw [offsetAt?, instr?_patch]
  split
  · rw [offsetAt?]
    cases p.instr? pc' with
    | none => rfl
    | some instr => cases instr <;> rfl
  · rfl

/-- Programs with the same instructions and the same classes are the same. -/
lemma ext (instrs : ∀ pc, p.instr? pc = q.instr? pc) (classes : p.classes = q.classes) : p = q := by
  obtain ⟨code, _⟩ := p
  cases classes
  rw [mk.injEq]
  exact ⟨Array.ext_getElem? instrs, rfl⟩

/-- Patches of different jumps may change places. -/
lemma patch_comm (ne : pc ≠ pc') : (p.patch pc target).patch pc' target' = (p.patch pc' target').patch pc target := by
  refine ext (fun i => ?_) ?_
  · rw [instr?_patch, instr?_patch, instr?_patch, instr?_patch]
    by_cases eq : i = pc
    · rw [if_pos eq, if_pos eq, if_neg (eq ▸ ne), if_neg (eq ▸ ne)]
    · rw [if_neg eq, if_neg eq]
  · rw [classes_patch, classes_patch, classes_patch, classes_patch]

/-- Whether there is a jump to patch does not depend on what has been patched before. -/
lemma answer_patch_patch :
    (p.patch pc target).answer (.patch pc' target') = p.answer (.patch pc' target') := by
  rw [answer, answer, isSome_patched?, isSome_patched?, offsetAt?_patch]
  split
  · rw [Option.isSome_map]
  · rfl

/-- A patch answers true exactly if there is an instruction that jumps. -/
lemma answer_patch_eq_true :
    p.answer (.patch pc target) = .patched true ↔ ∃ instr ∈ p.instr? pc, instr.offset?.isSome := by
  rw [answer, Answer.patched.injEq, isSome_patched?, offsetAt?, Option.isSome_bind, Option.any_eq_true]
  rfl

/-- A patch that does not answer true answers false, and changes nothing. -/
lemma apply_patch_of_answer (missed : p.answer (.patch pc target) ≠ .patched true) :
    p.answer (.patch pc target) = .patched false ∧ p.apply (.patch pc target) = p := by
  rw [answer, Ne, Answer.patched.injEq, Bool.not_eq_true] at missed
  refine ⟨congrArg Answer.patched missed, patch_of_offsetAt? ?_⟩
  rw [isSome_patched?] at missed
  exact Option.isNone_iff_eq_none.mp (Option.isSome_eq_false_iff.mp missed)

/-! ## What calls do -/

/-- What has been set last is what one more call sets, or else what had been set last before. -/
lemma last?_concat {set? : Call → Option Nat} {cs : List Call} {c : Call} :
    last? set? (cs ++ [c]) = (set? c).or (last? set? cs) := by
  rw [last?, List.filterMap_append, List.getLast?_append]
  cases eq : set? c with
  | none =>
    rw [List.filterMap_cons_none eq]
    rfl
  | some target =>
    rw [List.filterMap_cons_some eq]
    rfl

/-- What has been set last has been set by one of the calls. -/
lemma exists_of_last? {set? : Call → Option Nat} {cs : List Call} (last : last? set? cs = some target) :
    ∃ c ∈ cs, set? c = some target :=
  List.mem_filterMap.mp (List.mem_of_getLast? last)

/-- A directive that gives an instruction emits it. -/
lemma apply_of_instr? (emits : directive.instr? p.size = some instr) : p.apply directive = p.emit instr := by
  cases directive <;> cases emits <;> rfl

/-- A directive that gives an instruction patches nothing. -/
lemma patchedTo?_of_instr? (emits : directive.instr? p.size = some instr) : patchedTo? pc ⟨p, directive⟩ = none := by
  cases directive <;> cases emits <;> rfl

/-- A directive that gives an instruction leads no other one anywhere, and this one where its offset says. -/
lemma leadsTo?_of_instr? (emits : directive.instr? p.size = some instr)
    (leads : leadsTo? pc ⟨p, directive⟩ = some target) : pc = p.size ∧ instr.offset? = some (offsetTo pc target) := by
  cases directive with
  | emit => cases leads
  | loopTo =>
    obtain ⟨rfl, eq⟩ := Option.ite_none_right_eq_some.mp leads
    cases eq
    cases emits
    exact ⟨rfl, rfl⟩
  | addClass => cases emits
  | patch => cases emits

/-- A patch leads the instruction at its own index, if that one jumps. -/
lemma patchedTo?_patch :
    patchedTo? pc' ⟨p, .patch pc target⟩ = if pc = pc' ∧ (p.offsetAt? pc).isSome then some target else none := by
  simp only [patchedTo?, Call.answer, answer, Answer.patched.injEq, isSome_patched?]

/-- Calls are made for the directives only. -/
lemma directive_mem_of_mem_calls {c : Call} (mem : c ∈ p.calls directives) : c.directive ∈ directives := by
  induction directives generalizing p with
  | nil => cases mem
  | cons directive rest ih =>
    rcases List.mem_cons.mp mem with rfl | mem
    · exact List.mem_cons_self
    · exact List.mem_cons_of_mem _ (ih mem)

/-- Where a call leads a jump is the target of its directive. -/
lemma target?_of_leadsTo? {c : Call} (leads : leadsTo? pc c = some target) : c.directive.target? = some target := by
  obtain ⟨before, directive⟩ := c
  cases directive with
  | emit | addClass => cases leads
  | loopTo => exact (Option.ite_none_right_eq_some.mp leads).2
  | patch => exact (Option.ite_none_right_eq_some.mp leads).2

/-- A call that patches a jump leads it there. -/
lemma leadsTo?_of_patchedTo? {c : Call} (patched : patchedTo? pc c = some target) : leadsTo? pc c = some target := by
  obtain ⟨before, directive⟩ := c
  cases directive with
  | loopTo => cases patched
  | emit | addClass | patch => exact patched

/-- A call that emits answers with the size before it. -/
lemma answer_of_emitted? {c : Call} (emitted : c.emitted? = some instr) : c.answer = .index c.before.size := by
  obtain ⟨before, directive⟩ := c
  cases directive with
  | emit | loopTo => rfl
  | addClass | patch => cases emitted

/-! ## Runs of calls -/

/-- What a program is that calls have made. -/
structure Reflects (cs : List Call) (p : Program) : Prop where
  /-- An appended instruction stands where it has been appended, with its jump led to where it has been patched last. -/
  emitted : ∀ c ∈ cs, ∀ instr ∈ c.emitted?,
    p.instr? c.before.size = some (instr.settled c.before.size (last? (patchedTo? c.before.size) cs))
  /-- There is no instruction that has not been appended. -/
  covered : ∀ pc < p.size, ∃ c ∈ cs, c.before.size = pc ∧ c.emitted?.isSome
  /-- Only jumps have been patched. -/
  patched : ∀ pc target, last? (patchedTo? pc) cs = some target → (p.offsetAt? pc).isSome
  /-- The offset of a jump is the one to where the jump has been led last. -/
  led : ∀ pc target, last? (leadsTo? pc) cs = some target → p.offsetAt? pc = some (offsetTo pc target)

namespace Reflects

variable {cs : List Call}

/-- The empty program reflects that nothing has been called. -/
lemma empty : Reflects [] .empty where
  emitted := nofun
  covered := nofun
  patched := nofun
  led := nofun

/-- The program with one more instruction reflects the call that has emitted it. -/
lemma append (h : Reflects cs p) (emits : directive.instr? p.size = some instr) :
    Reflects (cs ++ [⟨p, directive⟩]) (p.apply directive) := by
  have last_patched (pc : Nat) : last? (patchedTo? pc) (cs ++ [⟨p, directive⟩]) = last? (patchedTo? pc) cs := by
    rw [last?_concat, patchedTo?_of_instr? emits, Option.none_or]
  have before {pc : Nat} (lt : pc < p.size) : (p.emit instr).instr? pc = p.instr? pc := by
    rw [instr?_emit, if_neg (Nat.ne_of_lt lt)]
  have behind : (p.emit instr).instr? p.size = some instr := by rw [instr?_emit, if_pos rfl]
  rw [apply_of_instr? emits]
  refine ⟨fun c mem instr' emitted => ?_, fun pc lt => ?_, fun pc target last => ?_, fun pc target last => ?_⟩
  · rw [last_patched]
    rcases List.mem_append.mp mem with mem | mem
    · have at_size := h.emitted c mem instr' emitted
      rw [before (lt_size_of_instr? at_size), at_size]
    · cases List.mem_singleton.mp mem
      cases emits.symm.trans emitted
      -- what has not been appended yet has not been patched
      cases last : last? (patchedTo? p.size) cs with
      | none => exact behind
      | some target => exact absurd (lt_size_of_offsetAt? (h.patched _ _ last)) (Nat.lt_irrefl _)
  · rw [size_emit] at lt
    rcases Nat.lt_or_eq_of_le (Nat.le_of_lt_succ lt) with lt | eq
    · obtain ⟨c, mem, at_pc⟩ := h.covered pc lt
      exact ⟨c, List.mem_append_left _ mem, at_pc⟩
    · exact ⟨_, List.mem_append_right _ (List.mem_singleton_self _), eq.symm, Option.isSome_of_eq_some emits⟩
  · rw [last_patched] at last
    have jumps := h.patched pc target last
    rwa [offsetAt?_congr (before (lt_size_of_offsetAt? jumps))]
  · rw [last?_concat] at last
    cases leads : leadsTo? pc ⟨p, directive⟩ with
    | none =>
      rw [leads, Option.none_or] at last
      have jumps := h.led pc target last
      rwa [offsetAt?_congr (before (lt_size_of_offsetAt? (Option.isSome_of_eq_some jumps)))]
    | some target' =>
      rw [leads, Option.some_or] at last
      cases last
      obtain ⟨rfl, offset⟩ := leadsTo?_of_instr? emits leads
      rw [offsetAt?_of_instr? behind, offset]

/-- A call that appends no instruction and leads no jump leaves everything as it is. -/
lemma keep (h : Reflects cs p) (code : (p.apply directive).code = p.code) (emits : directive.instr? p.size = none)
    (patches : ∀ pc, patchedTo? pc ⟨p, directive⟩ = none) (leads : ∀ pc, leadsTo? pc ⟨p, directive⟩ = none) :
    Reflects (cs ++ [⟨p, directive⟩]) (p.apply directive) := by
  have same (pc : Nat) : (p.apply directive).instr? pc = p.instr? pc := congrArg (·[pc]?) code
  refine ⟨fun c mem instr emitted => ?_, fun pc lt => ?_, fun pc target last => ?_, fun pc target last => ?_⟩
  · rw [same, last?_concat, patches, Option.none_or]
    rcases List.mem_append.mp mem with mem | mem
    · exact h.emitted c mem instr emitted
    · cases List.mem_singleton.mp mem
      cases emits.symm.trans emitted
  · rw [size, code] at lt
    obtain ⟨c, mem, at_pc⟩ := h.covered pc lt
    exact ⟨c, List.mem_append_left _ mem, at_pc⟩
  · rw [last?_concat, patches, Option.none_or] at last
    rw [offsetAt?_congr (same pc)]
    exact h.patched pc target last
  · rw [last?_concat, leads, Option.none_or] at last
    rw [offsetAt?_congr (same pc)]
    exact h.led pc target last

/-- The program with a jump led elsewhere reflects the patch that has found it. -/
lemma patch (h : Reflects cs p) (jumps : (p.offsetAt? pc).isSome) :
    Reflects (cs ++ [⟨p, .patch pc target⟩]) (p.patch pc target) := by
  have patches (pc' : Nat) : patchedTo? pc' ⟨p, .patch pc target⟩ = if pc = pc' then some target else none := by
    simp only [patchedTo?_patch, jumps, and_true]
  refine ⟨fun c mem instr emitted => ?_, fun pc' lt => ?_, fun pc' target' last => ?_, fun pc' target' last => ?_⟩
  · rcases List.mem_append.mp mem with mem | mem
    · rw [last?_concat, patches, instr?_patch, h.emitted c mem instr emitted]
      by_cases eq : c.before.size = pc
      · rw [if_pos eq, if_pos eq.symm, Option.some_or, eq, Option.map_some, ledTo_settled]
        rfl
      · rw [if_neg eq, if_neg (Ne.symm eq), Option.none_or]
    · cases List.mem_singleton.mp mem
      cases emitted
  · rw [size_patch] at lt
    obtain ⟨c, mem, at_pc⟩ := h.covered pc' lt
    exact ⟨c, List.mem_append_left _ mem, at_pc⟩
  · rw [last?_concat, patches] at last
    rw [offsetAt?_patch]
    by_cases eq : pc' = pc
    · rw [if_pos eq, Option.isSome_map, eq]
      exact jumps
    · rw [if_neg (Ne.symm eq), Option.none_or] at last
      rw [if_neg eq]
      exact h.patched pc' target' last
  · rw [last?_concat, show leadsTo? pc' ⟨p, .patch pc target⟩ = _ from patches pc'] at last
    rw [offsetAt?_patch]
    by_cases eq : pc' = pc
    · rw [if_pos eq.symm, Option.some_or] at last
      cases last
      obtain ⟨offset, at_pc⟩ := Option.isSome_iff_exists.mp jumps
      rw [if_pos eq, eq, at_pc, Option.map_some]
    · rw [if_neg (Ne.symm eq), Option.none_or] at last
      rw [if_neg eq]
      exact h.led pc' target' last

/-- The program after a call reflects the call, whichever it is. -/
lemma step (h : Reflects cs p) (directive : Directive) :
    Reflects (cs ++ [⟨p, directive⟩]) (p.apply directive) := by
  cases directive with
  | emit => exact h.append rfl
  | loopTo => exact h.append rfl
  | addClass => exact h.keep rfl rfl (fun _ => rfl) (fun _ => rfl)
  | patch pc target =>
    by_cases jumps : (p.offsetAt? pc).isSome
    · exact h.patch jumps
    · have patches (pc' : Nat) : patchedTo? pc' ⟨p, .patch pc target⟩ = none := by
        rw [patchedTo?_patch, if_neg fun found => jumps found.2]
      exact h.keep (congrArg code (patch_of_offsetAt? (Option.not_isSome_iff_eq_none.mp jumps))) rfl patches patches

/-- The program that all calls make reflects them. -/
lemma run (h : Reflects cs p) (directives : List Directive) :
    Reflects (cs ++ p.calls directives) (p.assemble directives) := by
  induction directives generalizing cs p with
  | nil =>
    rw [calls, List.append_nil]
    exact h
  | cons directive rest ih =>
    have next := ih (h.step directive)
    rw [List.append_assoc] at next
    exact next

end Reflects

/-! ## Classes -/

/-- No directive changes a class that is there. -/
lemma class?_apply (found : p.class? id = some set) : (p.apply directive).class? id = some set := by
  cases directive with
  | addClass =>
    rw [class?, apply, addClass, Array.getElem?_push, if_neg (Nat.ne_of_lt (Array.getElem?_eq_some_iff.mp found).1)]
    exact found
  | emit => exact found
  | loopTo => exact found
  | patch =>
    rw [class?, apply, classes_patch]
    exact found

/-- Directives change no class that is there. -/
lemma class?_assemble (found : p.class? id = some set) : (p.assemble directives).class? id = some set := by
  induction directives generalizing p with
  | nil => exact found
  | cons directive rest ih => exact ih (class?_apply found)

/-- A class stands where it has been added. -/
lemma class?_of_mem_calls {c : Call} (mem : c ∈ p.calls directives) (adds : c.directive = .addClass set) :
    (p.assemble directives).class? c.before.classes.size = some set := by
  induction directives generalizing p with
  | nil => cases mem
  | cons directive rest ih =>
    rcases List.mem_cons.mp mem with rfl | mem
    · cases adds
      have found : (p.addClass set).class? p.classes.size = some set := Array.getElem?_push_size
      exact class?_assemble (p := p.addClass set) found
    · exact ih mem

/-! ## Finished programs -/

/-- The offset between indices below 2^31 is their distance. -/
lemma toInt_offsetTo_of_lt (pc_lt : pc < 2 ^ 31) (target_lt : target < 2 ^ 31) :
    (offsetTo pc target).toInt = (target : Int) - pc := by
  apply toInt_offsetTo
  · rw [Int32.toInt_minValue]
    omega
  · rw [Int32.toInt_maxValue]
    omega

/-- A jump is refused if its offset leads behind the program. -/
lemma target_of_le {offset : Int32} (leads : (pc : Int) + offset.toInt = target) (le : p.size ≤ target) :
    p.target pc offset = .error (.jumpOutOfRange target p.size) := by
  rw [Program.target, leads]
  exact if_neg fun inside => Nat.not_lt.mpr le (Int.ofNat_lt.mp inside.2)

/-- An instruction led to a target resolves to it, as long as index and target stay below `2 ^ 31`. -/
lemma leads_ledTo (jumps : instr.offset?.isSome) (pc_lt : pc < 2 ^ 31) (target_lt : target < 2 ^ 31) :
    instr.Leads pc target (instr.ledTo pc target) :=
  ⟨offsetTo pc target, toInt_offsetTo_of_lt pc_lt target_lt, withOffset?_of_isSome jumps⟩

/-- An appended instruction stands in the finished program, its jump led to where it has been patched last. -/
lemma Reflects.exists_instr? {cs : List Call} {c : Call} (h : Reflects cs p) (size_le : p.size ≤ 2 ^ 31)
    (led_lt : ∀ c ∈ cs, ∀ pc target, leadsTo? pc c = some target → target < 2 ^ 31) (mem : c ∈ cs)
    (emitted : c.emitted? = some instr) :
    ∃ instr', p.instr? c.before.size = some instr' ∧
      match last? (patchedTo? c.before.size) cs with
      | some target => instr.Leads c.before.size target instr'
      | none => instr' = instr := by
  have at_size := h.emitted c mem instr emitted
  refine ⟨_, at_size, ?_⟩
  cases last : last? (patchedTo? c.before.size) cs with
  | none => rfl
  | some target =>
    obtain ⟨c', mem', patched⟩ := exists_of_last? last
    have target_lt := led_lt c' mem' _ _ (leadsTo?_of_patchedTo? patched)
    have jumps := h.patched _ _ last
    rw [offsetAt?_of_instr? at_size, isSome_offset?_settled] at jumps
    exact leads_ledTo jumps (Nat.lt_of_lt_of_le (lt_size_of_instr? at_size) size_le) target_lt

/-- A jump that has been led somewhere resolves to that index if the finished program reaches there. -/
lemma Reflects.exists_offsetAt? {cs : List Call} (h : Reflects cs p) (size_le : p.size ≤ 2 ^ 31)
    (led_lt : ∀ c ∈ cs, ∀ pc target, leadsTo? pc c = some target → target < 2 ^ 31)
    (last : last? (leadsTo? pc) cs = some target) :
    ∃ offset, p.offsetAt? pc = some offset ∧
      (target < p.size → p.target pc offset = .ok target) ∧
      (p.size ≤ target → p.target pc offset = .error (.jumpOutOfRange target p.size)) := by
  have at_pc := h.led pc target last
  obtain ⟨c, mem, led⟩ := exists_of_last? last
  have pc_lt := Nat.lt_of_lt_of_le (lt_size_of_offsetAt? (Option.isSome_of_eq_some at_pc)) size_le
  have leads : (pc : Int) + (offsetTo pc target).toInt = target := by
    rw [toInt_offsetTo_of_lt pc_lt (led_lt c mem pc target led)]
    omega
  exact ⟨_, at_pc, fun lt => target_eq_ok_iff.mpr ⟨leads, lt⟩, target_of_le leads⟩

/-- However a program has been assembled, each index holds the instruction that was appended there, with its jump led
to where the last patch that has found it leads. A patch finds just the jumps that have been appended already, and
changes nothing else. A jump that has been led somewhere resolves to that index in the finished program, and is
refused if the program ends before it. -/
theorem program_of_calls {directives : List Directive} {p : Program}
    (finished : p = assemble .empty directives ∨ (assemble .empty directives).build = .ok p)
    (size_le : (assemble .empty directives).size ≤ 2 ^ 31)
    (target_lt : ∀ directive ∈ directives, ∀ target ∈ directive.target?, target < 2 ^ 31) :
    let cs := calls .empty directives
    (∀ c ∈ cs, ∀ instr, c.emitted? = some instr →
      c.answer = .index c.before.size ∧
      ∃ instr', p.instr? c.before.size = some instr' ∧
        match last? (patchedTo? c.before.size) cs with
        | some target => instr.Leads c.before.size target instr'
        | none => instr' = instr) ∧
    (∀ pc < p.size, ∃ c ∈ cs, c.before.size = pc ∧ c.emitted?.isSome) ∧
    (∀ q pc target,
      (answer q (.patch pc target) = .patched true ↔ ∃ instr ∈ q.instr? pc, instr.offset?.isSome) ∧
      (answer q (.patch pc target) ≠ .patched true →
        answer q (.patch pc target) = .patched false ∧ q.apply (.patch pc target) = q)) ∧
    (∀ pc target, last? (leadsTo? pc) cs = some target →
      ∃ offset, p.offsetAt? pc = some offset ∧
        (target < p.size → p.target pc offset = .ok target) ∧
        (p.size ≤ target → p.target pc offset = .error (.jumpOutOfRange target p.size))) ∧
    (∀ q pc pc' target target', pc ≠ pc' →
      (patch q pc target).patch pc' target' = (patch q pc' target').patch pc target ∧
      (patch q pc target).answer (.patch pc' target') = answer q (.patch pc' target')) ∧
    ∀ c ∈ cs, ∀ set, c.directive = .addClass set →
      c.answer = .index c.before.classes.size ∧ p.class? c.before.classes.size = some set := by
  intro cs
  have eq : p = assemble .empty directives := finished.elim id eq_of_build
  have reflects : Reflects cs p := eq ▸ Reflects.empty.run directives
  rw [← eq] at size_le
  have led_lt : ∀ c ∈ cs, ∀ pc target, leadsTo? pc c = some target → target < 2 ^ 31 :=
    fun c mem _ _ leads => target_lt _ (directive_mem_of_mem_calls mem) _ (target?_of_leadsTo? leads)
  refine ⟨fun c mem instr emitted => ?_, reflects.covered, fun q pc target => ?_, fun pc target last => ?_,
    fun q pc pc' target target' ne => ⟨patch_comm ne, answer_patch_patch⟩, fun c mem set adds => ⟨?_, ?_⟩⟩
  · exact ⟨answer_of_emitted? emitted, reflects.exists_instr? size_le led_lt mem emitted⟩
  · exact ⟨answer_patch_eq_true, apply_patch_of_answer⟩
  · exact reflects.exists_offsetAt? size_le led_lt last
  · rw [Call.answer, adds]
    rfl
  · rw [eq]
    exact class?_of_mem_calls mem adds

/-- An optional run of `a`. Its first jump is patched twice, the second time forward behind the loop. Patches of an
instruction that does not jump, before and after it has been appended, are lost. -/
theorem program_of_calls_optional :
    let directives : List Directive :=
      [.emit (.branchFirst 0), .patch 0 9, .patch 1 7, .emit .savePos, .patch 1 7, .addClass (.ofRange 97 97),
        .emit (.byteClass 0 false), .loopTo 1, .patch 0 4, .emit .accept]
    let p : Program :=
      ⟨#[.branchFirst 4, .savePos, .byteClass 0 false, .jumpIfAdvanced (-2), .accept], #[.ofRange 97 97]⟩
    (assemble .empty directives).build = .ok p ∧
    (∃ instr, p.instr? 0 = some instr ∧ (Instr.branchFirst 0).Leads 0 4 instr) ∧
    p.target 0 4 = .ok 4 ∧ p.target 3 (-2) = .ok 1 := by
  intro directives p
  have built : (assemble .empty directives).build = .ok p := by decide +kernel
  obtain ⟨emitted, _, _, led, _⟩ := program_of_calls (.inr built) (by decide) (by decide)
  obtain ⟨_, first⟩ := emitted ⟨.empty, .emit (.branchFirst 0)⟩ List.mem_cons_self _ rfl
  obtain ⟨_, forth, forward, _⟩ := led 0 4 rfl
  obtain ⟨_, back, backward, _⟩ := led 3 1 rfl
  cases forth
  cases back
  exact ⟨built, first, forward (by decide), backward (by decide)⟩

end Program

end PatternVM
