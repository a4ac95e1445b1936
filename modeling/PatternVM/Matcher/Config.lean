/-!
# Configuration

What a matcher is made from: a limit for its stack of choice points and a set of options. Options are bits
of a word; bits without a meaning are kept.
-/

namespace PatternVM

/-- A set of options, one bit for each. -/
structure Options where
  bits : UInt32
  deriving DecidableEq

namespace Options

/-- No option. -/
def none : Options := ⟨0⟩

/-- Every step is reported. -/
def trace : Options := ⟨1⟩

/-- A program that only looks for a literal is run like any other. -/
def noFastPath : Options := ⟨2⟩

/-- Whether all options of `o` are set. -/
def has (options o : Options) : Bool := options.bits &&& o.bits == o.bits

/-- Sets the options of `o` too. -/
def add (options o : Options) : Options := ⟨options.bits ||| o.bits⟩

/-- Sets or clears the options of `o`. -/
def set (options o : Options) (on : Bool) : Options :=
  if on then options.add o else ⟨options.bits &&& ~~~o.bits⟩

end Options

/-- The limit for choice points that is in force at first. It stands for no limit. -/
def initialLimit : Nat := 0

/-- What a matcher is made from. A `limit` of 0 stands for no limit. -/
structure Config where
  limit : Nat
  options : Options
  deriving DecidableEq

/-- One change to a configuration. -/
inductive Setting
  | limit (n : Nat)
  | trace (on : Bool)
  | fastPath (on : Bool)
  /-- Sets further options, given as bits. -/
  | options (bits : UInt32)

namespace Config

/-- A limit and no options. -/
def ofLimit (limit : Nat) : Config := ⟨limit, .none⟩

/-- The configuration after one more setting. -/
def apply (c : Config) : Setting → Config
  | .limit n => { c with limit := n }
  | .trace on => { c with options := c.options.set .trace on }
  | .fastPath on => { c with options := c.options.set .noFastPath !on }
  | .options bits => { c with options := c.options.add ⟨bits⟩ }

/-- The configuration after some more settings, in order. -/
def applyAll (c : Config) (settings : List Setting) : Config := settings.foldl apply c

end Config

end PatternVM
