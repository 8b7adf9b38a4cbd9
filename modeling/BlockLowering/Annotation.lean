/-!
Notes that the front end puts on a program and the pass hands on unread: where a construct stands in
the sources, and how long the result of a call is expected to live.
-/
namespace BlockLowering

structure Location where
  file : Nat
  line : Nat
  column : Nat
  deriving DecidableEq, Repr

namespace Location

/-- The place of code that no source line gave rise to. -/
def unknown : Location := ⟨0,0,0⟩

instance : Inhabited Location := ⟨unknown⟩

instance : ToString Location := ⟨fun l => s!"file{l.file}:{l.line}:{l.column}"⟩

end Location

/-- A hint for the memory manager on the result of a call. -/
inductive Lifetime where
  | local
  | returnValue
  | global
  | escaping
  | irrelevant
  deriving DecidableEq, Repr

end BlockLowering
