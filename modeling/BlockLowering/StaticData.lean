import BlockLowering.Module
/-!
Placement of static data in a module. Equal strings share one piece of data, across all modules that
one table of strings serves.
-/
namespace BlockLowering

structure StringPool where
  places : Table String DataId
  deriving DecidableEq

namespace StringPool

def empty : StringPool := ⟨{}⟩

/-- The data of a string, placed in the module unless the pool has a place already. -/
def intern (pool : StringPool) (m : Module) (value : String) : DataId × StringPool × Module :=
  match pool.places.get? value with
  | some id => (id, pool, m)
  | none =>
    let (id, m) := m.addDatum s!"str.{pool.places.size}" .ptr (.string value)
    (id, ⟨pool.places.insert value id⟩, m)

end StringPool

namespace Module

def placeArray (m : Module) (elementType : NativeType) (elements : List Literal) : DataId × Module :=
  m.addDatum s!"array.{m.nextDatum}" .ptr (.array elementType elements)

def placeAggregate (m : Module) (parts : List Literal) : DataId × Module :=
  m.addDatum s!"aggregate.{m.nextDatum}" .ptr (.aggregate parts)

end Module

end BlockLowering
