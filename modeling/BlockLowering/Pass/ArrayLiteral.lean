import BlockLowering.Pass.Unwind
/-!
Array literals. All items are evaluated first; then the array is allocated with room for the single
elements and the spread arrays together, and filled from its start.
-/
namespace BlockLowering

/-- An item in registers; a spread array comes with its length. -/
inductive SizedItem where
  | element (value : Register)
  | spread (array length : Register)

namespace Lower

def evalItems (recurse : Recurse) (chain : Chain) : List (ArrayItem Expr) → Lower (Option (List (ArrayItem Register)))
  | [] => return some []
  | item :: rest => do
    match ← eval recurse chain item.expression with
    | none => return none
    | some value =>
      let register ← materialize value
      match ← evalItems recurse chain rest with
      | none => return none
      | some registers => return some (item.withExpression register :: registers)

/-- Ask for the lengths of the spread arrays and add them to a length. -/
def measure (chain : Chain) : Register → List (ArrayItem Register) → Lower (Register × List SizedItem)
  | length, [] => return (length, [])
  | length, .element value :: rest => do
    let (total, items) ← measure chain length rest
    return (total, .element value :: items)
  | length, .spread array :: rest => do
    let size ← produced .arraySize (← callSupport chain .arraySize [array])
    let length ← build (Build.binary .add length size)
    let (total, items) ← measure chain length rest
    return (total, .spread array size :: items)

def fillArray (chain : Chain) (array one : Register) : Register → List SizedItem → Lower Unit
  | _, [] => return
  | index, .element value :: rest => do
    let address ← produced .elementAddress (← callSupport chain .arrayElementAddress [array,index])
    let next ← build do
      Build.store address value
      Build.binary .add index one
    fillArray chain array one next rest
  | index, .spread source length :: rest => do
    let zero ← build (Build.int 0 .i32)
    let _ ← callSupport chain .arrayCopy [source,zero,array,index,length]
    let next ← build (Build.binary .add index length)
    fillArray chain array one next rest

def lowerArrayLiteral (recurse : Recurse) (chain : Chain) (elementType : Ty) (items : List (ArrayItem Expr)) (ty : Ty) : Lower Value := do
  match ← evalItems recurse chain items with
  | none => return .unreachable ty
  | some registers =>
    let fixed ← build (Build.int (registers.countP ArrayItem.isElement) .i32)
    let (length, sized) ← measure chain fixed registers
    let elementSize ← build (Build.int elementType.storage.size .i32)
    let array ← produced .array (← callSupport chain .allocArray [elementSize,length])
    let one ← build (Build.int 1 .i32)
    let start ← build (Build.int 0 .i32)
    fillArray chain array one start sized
    return .ofRegister array ty

end Lower

end BlockLowering
