import BlockLowering.Declarations
/-!
Object bodies and method tables, class by class. A body starts with the pointer to the type
descriptor, goes on with the fields of the superclass and ends with the class's own fields. A method
table starts as the superclass's; an overriding method takes the slot of the method it names, and
other virtual methods are appended.
-/
namespace BlockLowering

structure Layout where
  bodies : Table ClassId (String × List NativeType)
  fieldIndices : Table FieldId Nat
  vtables : Table ClassId (List FunctionId)
  slots : Table FunctionId Nat
  deriving DecidableEq

namespace Layout

def empty : Layout := ⟨{},{},{},{}⟩

/-- The head of every type descriptor: superclass, table of open methods and their number. -/
def descriptorHead : List NativeType := [.ptr,.ptr,.i32]

def vtableBase : Nat := descriptorHead.length

def bareBody : List NativeType := [.ptr]

def placeFields (decls : Declarations) : List FieldId → List NativeType × Table FieldId Nat → List NativeType × Table FieldId Nat
  | [], placed => placed
  | id :: rest, (body, indices) =>
    match decls.fields.get? id with
    | some field => placeFields decls rest (body ++ [field.ty.storage], indices.insert id body.length)
    | none => placeFields decls rest (body, indices)

/-- Put a method into a table: into the slot of the method it overrides, or else at the end. -/
def placeMethod (method : FunctionDecl) (vtable : List FunctionId) : Nat × List FunctionId :=
  match method.overrides.bind fun overridden => vtable.idxOf? overridden with
  | some slot => (slot, vtable.set slot method.id)
  | none => (vtable.length, vtable ++ [method.id])

def placeMethods : List FunctionDecl → List FunctionId × Table FunctionId Nat → List FunctionId × Table FunctionId Nat
  | [], placed => placed
  | method :: rest, (vtable, slots) =>
    let (slot, vtable) := placeMethod method vtable
    placeMethods rest (vtable, slots.insert method.id slot)

def virtualMethods (decls : Declarations) (c : ClassDecl) (id : ClassId) : List FunctionDecl :=
  if c.kind = .interface then []
  else decls.functions.values.filter fun f =>
    f.owner == some id && f.kind == .method && (f.isOverridable || f.overrides.isSome)

def placeClass (decls : Declarations) (l : Layout) (id : ClassId) (c : ClassDecl) : Layout :=
  let inheritedBody := ((c.superclass.bind l.bodies.get?).map Prod.snd).getD bareBody
  let inheritedTable := (c.superclass.bind l.vtables.get?).getD []
  let (body, fieldIndices) := placeFields decls c.fields (inheritedBody, l.fieldIndices)
  let (vtable, slots) := placeMethods (virtualMethods decls c id) (inheritedTable, l.slots)
  { bodies := l.bodies.insert id (c.name, body)
    fieldIndices
    vtables := l.vtables.insert id vtable
    slots }

/-- Lay out a class after its superclasses, unless it is laid out already; the first argument bounds
    the length of the chain of superclasses. -/
def visit (decls : Declarations) : Nat → Layout → ClassId → Layout
  | 0, l, _ => l
  | depth + 1, l, id =>
    if l.bodies.contains id then l
    else
      match decls.classes.get? id with
      | none => l
      | some c =>
        let l := match c.superclass with
          | some superclass => visit decls depth l superclass
          | none => l
        placeClass decls l id c

/-- The layout of all declared classes. A chain of superclasses without a cycle is no longer than the
    number of classes. -/
def ofDeclarations (decls : Declarations) : Layout :=
  decls.classes.keys.foldl (visit decls (decls.classes.size + 1)) empty

def bodyType (l : Layout) (cls : ClassId) : Except Error NativeType :=
  match l.bodies.get? cls with
  | some (name, fields) => .ok (.struct name fields)
  | none => .error (.unresolved (.layoutOfClass cls))

def fieldIndex (l : Layout) (field : FieldId) : Except Error Nat :=
  match l.fieldIndices.get? field with
  | some index => .ok index
  | none => .error (.unresolved (.layoutOfField field))

def vtableSlot (l : Layout) (function : FunctionId) : Except Error Nat :=
  match l.slots.get? function with
  | some slot => .ok slot
  | none => .error (.unresolved (.vtableSlot function))

def descriptorType (l : Layout) (cls : ClassId) : Except Error NativeType :=
  match l.vtables.get? cls with
  | some vtable =>
    let name := ((l.bodies.get? cls).map Prod.fst).getD (toString cls)
    .ok (.struct s!"{name}$TypeInfo" (descriptorHead ++ List.replicate vtable.length .ptr))
  | none => .error (.unresolved (.typeDescriptor cls))

end Layout

end BlockLowering
