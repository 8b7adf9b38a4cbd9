import BlockLowering.Proofs.Hierarchy
import Mathlib.Data.List.Pairwise
/-!
The bodies of objects. Every class has a body that starts with the pointer to its descriptor, and the
index of each of its fields names an element of the field's type; a class that is laid out twice, because
its superclasses form a cycle, gets body and indices anew together. Without cycles the body of a class
goes on where that of its superclass ends.
-/
namespace BlockLowering
open Option Table List

/-- No field is listed twice, in one class or in two. -/
def Declarations.FieldsOnce (d : Declarations) : Prop := (d.classes.values.flatMap ClassDecl.fields).Nodup

instance (d : Declarations) : Decidable d.FieldsOnce := inferInstanceAs (Decidable (List.Nodup _))

namespace Declarations.FieldsOnce
variable {d : Declarations} {id other : ClassId} {c c' : ClassDecl} {f : FieldId}

theorem nodup (once : d.FieldsOnce) (declared : d.classes.get? id = some c) : c.fields.Nodup :=
  (nodup_flatMap.mp once).1 c (mem_values_iff.mpr ⟨id,declared⟩)

theorem apart (once : d.FieldsOnce) (declared : d.classes.get? id = some c) (declared' : d.classes.get? other = some c')
    (different : id ≠ other) (inside : f ∈ c.fields) : f ∉ c'.fields := by
  have pairs := (nodup_flatMap.mp once).2
  rw [Table.values,pairwise_map] at pairs
  have : Std.Symm fun a b : ClassId × ClassDecl => Function.onFun List.Disjoint ClassDecl.fields a.2 b.2 :=
    ⟨fun _ _ disjoint _ inside inside' => disjoint inside' inside⟩
  have disjoint := pairs.forall (mem_entries_iff.mpr declared) (mem_entries_iff.mpr declared')
    fun same => different (Prod.mk.inj same).1
  exact fun inside' => disjoint inside inside'

end Declarations.FieldsOnce

namespace Layout
variable {decls : Declarations} {l : Layout} {id other : ClassId} {c c' : ClassDecl} {inherited : List NativeType}
variable {f : FieldId}

/-- The fields of a class stand behind an inherited body, at the indices that are noted for them. -/
structure FieldsPlaced (decls : Declarations) (l : Layout) (id : ClassId) (c : ClassDecl) (inherited : List NativeType) : Prop where
  body : l.bodies.get? id = some (c.name, inherited ++ storageTypes decls c.fields)
  index : ∀ {f field}, (f, field) ∈ declaredFields decls c.fields →
    ∃ i, l.fieldIndices.get? f = some (inherited.length + i) ∧ (declaredFields decls c.fields)[i]? = some (f, field)

theorem FieldsPlaced.own (once : decls.FieldsOnce) (declared : decls.classes.get? id = some c) :
    FieldsPlaced decls (placeClass decls l id c) id c (l.inheritedBody c) where
  body := by simp [bodies_placeClass]
  index inside := by
    exact placeFields_index (once.nodup declared) inside

theorem FieldsPlaced.keep (placed : FieldsPlaced decls l other c' inherited) (once : decls.FieldsOnce)
    (declared : decls.classes.get? id = some c) (declared' : decls.classes.get? other = some c') (different : other ≠ id) :
    FieldsPlaced decls (placeClass decls l id c) other c' inherited where
  body := by
    rw [bodies_placeClass,get?_insert,if_neg different]
    exact placed.body
  index inside := by
    have outside := once.apart declared' declared different (mem_declaredFields.mp inside).1
    rw [fieldIndices_placeClass,placeFields_index_of_undeclared fun inside => absurd inside outside]
    exact placed.index inside

/-- Bodies start with the pointer to the descriptor. -/
def Headed (l : Layout) : Prop := ∀ id name body, l.bodies.get? id = some (name, body) → body[0]? = some .ptr

theorem Headed.inherits (headed : l.Headed) : (l.inheritedBody c)[0]? = some .ptr := by
  unfold inheritedBody
  cases found : c.superclass.bind l.bodies.get? with
  | none => rfl
  | some entry =>
    obtain ⟨superclass,-,there⟩ := bind_eq_some_iff.mp found
    exact headed superclass _ _ there

theorem Headed.placeClass (headed : l.Headed) : (placeClass decls l id c).Headed := by
  intro other name body found
  rw [bodies_placeClass] at found
  rcases insert_cases found with ⟨-,same⟩ | old
  · obtain ⟨-,rfl⟩ := Prod.mk.inj same
    have start := headed.inherits (c := c)
    rw [List.getElem?_append_left (List.getElem?_eq_some_iff.mp start).1]
    exact start
  · exact headed other name body old

theorem headed_ofDeclarations : (ofDeclarations decls).Headed :=
  ofDeclarations_induction (fun _ _ _ found => nomatch found) fun _ headed => headed.placeClass

/-- The fields of all classes that are laid out are placed behind a body that starts with a pointer. -/
structure BodiesSound (decls : Declarations) (l : Layout) : Prop where
  headed : l.Headed
  placed : ∀ {id c}, decls.classes.get? id = some c → l.Has id →
    ∃ inherited, inherited[0]? = some .ptr ∧ FieldsPlaced decls l id c inherited

theorem BodiesSound.placeClass (sound : BodiesSound decls l) (once : decls.FieldsOnce)
    (declared : decls.classes.get? id = some c) : BodiesSound decls (placeClass decls l id c) where
  headed := sound.headed.placeClass
  placed {other c'} declared' has := by
    by_cases here : other = id
    · subst here
      obtain rfl := mem_unique declared declared'
      exact ⟨_,sound.headed.inherits,.own once declared⟩
    · obtain ⟨inherited,start,placed⟩ := sound.placed declared' ((has_placeClass.mp has).resolve_left here)
      exact ⟨inherited,start,placed.keep once declared declared' here⟩

theorem bodiesSound_ofDeclarations (once : decls.FieldsOnce) : BodiesSound decls (ofDeclarations decls) := by
  refine ofDeclarations_induction ⟨(fun _ _ _ found => nomatch found),?_⟩ fun declared sound => sound.placeClass once declared
  rintro id c - ⟨_,found⟩
  exact nomatch found

/-! ### Superclasses -/

/-- The bodies of classes that are laid out go on where those of their superclasses end. -/
def BodiesExtend (decls : Declarations) (l : Layout) : Prop :=
  ∀ id c, decls.classes.get? id = some c → l.Has id →
    l.bodies.get? id = some (c.name, l.inheritedBody c ++ storageTypes decls c.fields)

theorem BodiesExtend.placeClass (extend : BodiesExtend decls l) (acyclic : decls.Acyclic) (order : InOrder decls l id c) :
    BodiesExtend decls (placeClass decls l id c) := by
  intro other c' declared has
  by_cases here : other = id
  · subst here
    obtain rfl := mem_unique order.declared declared
    rw [(inherited_placeClass fun _ named => acyclic.ne ⟨c,declared,named⟩).1,bodies_placeClass,get?_insert,if_pos rfl]
  · have has := (has_placeClass.mp has).resolve_left here
    rw [(inherited_placeClass fun _ named => order.apart declared has named).1,bodies_placeClass,get?_insert,if_neg here]
    exact extend other c' declared has

theorem bodiesExtend_ofDeclarations (acyclic : decls.Acyclic) : BodiesExtend decls (ofDeclarations decls) := by
  refine (ofDeclarations_ordered (P := BodiesExtend decls) acyclic ?_ fun order extend => extend.placeClass acyclic order).2
  rintro id c - ⟨_,found⟩
  exact nomatch found

theorem body_prefix {superclass : ClassId} {s : ClassDecl} (acyclic : decls.Acyclic)
    (below : Relation.TransGen decls.Extends id superclass) (declared : decls.classes.get? superclass = some s) :
    ∃ name elements inherited, (ofDeclarations decls).bodies.get? id = some (name, elements) ∧
      (ofDeclarations decls).bodies.get? superclass = some (s.name, inherited) ∧ inherited <+: elements := by
  have extend := bodiesExtend_ofDeclarations acyclic
  have direct : ∀ {sub superclass s}, decls.Extends sub superclass → decls.classes.get? superclass = some s →
      ∃ name elements inherited, (ofDeclarations decls).bodies.get? sub = some (name, elements) ∧
        (ofDeclarations decls).bodies.get? superclass = some (s.name, inherited) ∧ inherited <+: elements := by
    rintro sub superclass s ⟨c,found,named⟩ declared
    have body := extend _ _ declared (has_ofDeclarations declared)
    refine ⟨_,_,_,extend _ _ found (has_ofDeclarations found),body,?_⟩
    simp [inheritedBody,named,body]
  induction below using Relation.TransGen.head_induction_on with
  | single step => exact direct step declared
  | head step rest ih =>
    obtain ⟨name,elements,inherited,middle,top,start⟩ := ih
    obtain ⟨c,found⟩ : ∃ c, decls.classes.get? _ = some c := by
      obtain ⟨_,⟨c,found,_⟩,_⟩ := Relation.TransGen.head'_iff.mp rest
      exact ⟨c,found⟩
    obtain ⟨name',elements',inherited',here,middle',start'⟩ := direct step found
    obtain ⟨-,rfl⟩ := Prod.mk.inj (mem_unique middle middle')
    exact ⟨name',elements',inherited,here,top,start.trans start'⟩

/-! ### Addresses -/

theorem bodyType_eq {name : String} {elements : List NativeType} (found : l.bodies.get? id = some (name, elements)) :
    l.bodyType id = .ok (.struct name elements) := by
  unfold bodyType
  rw [found]

theorem fieldIndex_eq {i : Nat} (found : l.fieldIndices.get? f = some i) : l.fieldIndex f = .ok i := by
  unfold fieldIndex
  rw [found]

theorem FieldsPlaced.element {field : FieldDecl} (placed : FieldsPlaced decls l id c inherited)
    (inside : f ∈ c.fields) (declared : decls.fields.get? f = some field) : ∃ i, l.fieldIndices.get? f = some i ∧ inherited.length ≤ i ∧
      (inherited ++ storageTypes decls c.fields)[i]? = some field.ty.storage := by
  obtain ⟨i,index,there⟩ := placed.index (mem_declaredFields.mpr ⟨inside,declared⟩)
  refine ⟨inherited.length + i,index,Nat.le_add_right _ _,?_⟩
  rw [getElem?_append_right (Nat.le_add_right _ _),Nat.add_sub_cancel_left]
  simp [storageTypes,there]

theorem FieldsPlaced.index_injective {g : FieldId} {field field' : FieldDecl} (placed : FieldsPlaced decls l id c inherited)
    (inside : f ∈ c.fields) (declared : decls.fields.get? f = some field) (inside' : g ∈ c.fields)
    (declared' : decls.fields.get? g = some field') (same : l.fieldIndices.get? f = l.fieldIndices.get? g) : f = g := by
  obtain ⟨i,index,there⟩ := placed.index (mem_declaredFields.mpr ⟨inside,declared⟩)
  obtain ⟨j,index',there'⟩ := placed.index (mem_declaredFields.mpr ⟨inside',declared'⟩)
  have positions : inherited.length + i = inherited.length + j := mem_unique index (same.trans index')
  obtain rfl : i = j := by omega
  exact (Prod.mk.inj (mem_unique there there')).1

/-- Where no field is listed twice, every class has a body that starts with a pointer, and each of its declared fields
    has an index of its own behind it, at which the body holds the field's type. Without cycles a class starts with
    the body of each of its superclasses, so that the fields of a superclass keep index and type in it. -/
theorem field_addresses_sound (once : decls.FieldsOnce) : (∀ id c, decls.classes.get? id = some c → ∃ elements,
      (ofDeclarations decls).bodyType id = .ok (.struct c.name elements) ∧ elements[0]? = some .ptr ∧
      (∀ f ∈ c.fields, ∀ field, decls.fields.get? f = some field →
        ∃ i, (ofDeclarations decls).fieldIndex f = .ok i ∧ 1 ≤ i ∧ elements[i]? = some field.ty.storage) ∧
      ∀ f ∈ c.fields, ∀ g ∈ c.fields, ∀ field field', decls.fields.get? f = some field → decls.fields.get? g = some field' →
        f ≠ g → (ofDeclarations decls).fieldIndex f ≠ (ofDeclarations decls).fieldIndex g) ∧
    (decls.Acyclic → ∀ id superclass s, Relation.TransGen decls.Extends id superclass →
      decls.classes.get? superclass = some s → ∃ name elements inherited, (ofDeclarations decls).bodyType id = .ok (.struct name elements) ∧
        (ofDeclarations decls).bodyType superclass = .ok (.struct s.name inherited) ∧ inherited <+: elements ∧
        ∀ f ∈ s.fields, ∀ field, decls.fields.get? f = some field →
          ∃ i, (ofDeclarations decls).fieldIndex f = .ok i ∧ elements[i]? = some field.ty.storage) := by
  have sound := bodiesSound_ofDeclarations once
  constructor
  · intro id c declared
    obtain ⟨inherited,start,placed⟩ := sound.placed declared (has_ofDeclarations declared)
    have bound := (List.getElem?_eq_some_iff.mp start).1
    refine ⟨_,bodyType_eq placed.body,sound.headed _ _ _ placed.body,?_,?_⟩
    · intro f inside field known
      obtain ⟨i,index,behind,there⟩ := placed.element inside known
      exact ⟨i,fieldIndex_eq index,by omega,there⟩
    · intro f inside g inside' field field' known known' different same
      obtain ⟨i,index,-⟩ := placed.element inside known
      obtain ⟨j,index',-⟩ := placed.element inside' known'
      rw [fieldIndex_eq index,fieldIndex_eq index'] at same
      refine different (placed.index_injective inside known inside' known' ?_)
      rw [index,index',Except.ok.inj same]
  · intro acyclic id superclass s below declared
    obtain ⟨name,elements,inherited,here,top,start⟩ := body_prefix acyclic below declared
    refine ⟨name,elements,inherited,bodyType_eq here,bodyType_eq top,start,fun f inside field known => ?_⟩
    obtain ⟨_,-,placed⟩ := sound.placed declared (has_ofDeclarations declared)
    obtain ⟨i,index,-,there⟩ := placed.element inside known
    obtain ⟨-,rfl⟩ := Prod.mk.inj (Option.some.inj (placed.body.symm.trans top))
    refine ⟨i,fieldIndex_eq index,?_⟩
    obtain ⟨rest,rfl⟩ := start
    rw [List.getElem?_append_left (List.getElem?_eq_some_iff.mp there).1]
    exact there

end Layout

def openMethod (id cls : Nat) (overrides : Option FunctionId) : FunctionDecl :=
  { FunctionDecl.method ⟨id⟩ "m" ⟨cls⟩ ⟨0⟩ [] .unit with isOverridable := true, overrides }

/-- A hierarchy of three classes, the last one declared first, with overridable methods, some of which override others. -/
def shapeDecls : Declarations := .ofLists
  [⟨⟨2⟩,"Circle",.cls,some ⟨1⟩,[⟨2⟩],false⟩,⟨⟨0⟩,"Shape",.cls,none,[⟨0⟩],false⟩,
    ⟨⟨1⟩,"Disc",.cls,some ⟨0⟩,[⟨1⟩],false⟩]
  [openMethod 10 0 none,openMethod 11 0 none,openMethod 12 1 (some ⟨10⟩),openMethod 13 2 (some ⟨11⟩),openMethod 14 2 none]
  [.instanceField ⟨0⟩ "id" ⟨0⟩ .int,.instanceField ⟨1⟩ "radius" ⟨1⟩ .long,.instanceField ⟨2⟩ "filled" ⟨2⟩ .boolean]

theorem acyclic_shapeDecls : shapeDecls.Acyclic := .of_rank ClassId.index (by decide)

/-- The field of the uppermost class is an integer in the objects of the lowest one. -/
theorem shapes_share_fields : shapeDecls.FieldsOnce ∧ shapeDecls.Acyclic ∧ ∃ name elements i,
    (Layout.ofDeclarations shapeDecls).bodyType ⟨2⟩ = .ok (.struct name elements) ∧
      (Layout.ofDeclarations shapeDecls).fieldIndex ⟨0⟩ = .ok i ∧ elements[i]? = some .i32 := by
  have once : shapeDecls.FieldsOnce := by decide
  have below : Relation.TransGen shapeDecls.Extends ⟨2⟩ ⟨0⟩ := .tail (.single ⟨_,rfl,rfl⟩) ⟨_,rfl,rfl⟩
  obtain ⟨name,elements,-,body,-,-,fields⟩ :=
    (Layout.field_addresses_sound once).2 acyclic_shapeDecls ⟨2⟩ ⟨0⟩ _ below rfl
  obtain ⟨i,index,there⟩ := fields ⟨0⟩ (by decide) _ rfl
  exact ⟨once,acyclic_shapeDecls,name,elements,i,body,index,there⟩

end BlockLowering
