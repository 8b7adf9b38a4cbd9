import BlockLowering.Proofs.MethodTables
import BlockLowering.Proofs.ObjectBodies
/-!
Layouts do not depend on the order in which classes are declared. A finished layout satisfies laws that name
neither the order nor the bound on the depth: body and method table of a class follow from those of its
superclass, indices and slots from both. A layout of the same classes in another order agrees at each step
with any layout that satisfies them.
-/
namespace BlockLowering
open List Table Option

namespace Declarations
variable {d : Declarations} {classes : Table ClassId ClassDecl}

theorem get?_reordered (reordered : classes.entries.Perm d.classes.entries) (id : ClassId) : classes.get? id = d.classes.get? id :=
  ext fun _ => mem_entries_iff.symm.trans (reordered.mem_iff.trans mem_entries_iff)

theorem Acyclic.reordered (acyclic : d.Acyclic) (reordered : classes.entries.Perm d.classes.entries) : Acyclic { d with classes } := by
  have same : Extends { d with classes } = d.Extends := by
    funext sub superclass
    simp only [Extends,get?_reordered reordered]
  exact fun id cycle => acyclic id (same ▸ cycle)

theorem FieldsOnce.reordered (once : d.FieldsOnce) (reordered : classes.entries.Perm d.classes.entries) : FieldsOnce { d with classes } :=
  ((reordered.map Prod.snd).flatMap_right ClassDecl.fields).nodup_iff.mpr once

end Declarations

namespace Layout
variable {decls : Declarations} {l final : Layout} {id : ClassId} {c : ClassDecl} {f : FieldId} {depth : Nat} {trail : List ClassId}

/-! ### The bound on the depth -/

theorem visit_deeper (acyclic : decls.Acyclic) (on : Trail decls trail id depth) (more : Nat) :
    visit decls (depth + more) l id = visit decls depth l id := by
  induction depth generalizing l id trail with
  | zero => exact absurd on.depth_pos (Nat.lt_irrefl 0)
  | succ depth ih =>
    rw [Nat.add_right_comm]
    unfold visit
    cases declared : decls.classes.get? id with
    | none => rfl
    | some c =>
      cases named : c.superclass with
      | none => simp only [named]
      | some superclass => simp only [named,ih (on.step acyclic declared named)]

theorem ofDeclarations_deeper (acyclic : decls.Acyclic) (enough : decls.classes.size < depth) :
    decls.classes.keys.foldl (visit decls depth) empty = ofDeclarations decls := by
  obtain ⟨more,rfl⟩ := Nat.exists_eq_add_of_lt enough
  have start : ∀ first, Trail decls [] first (decls.classes.size + 1) := fun _ => ⟨nodup_nil,nil_subset _,by simp,by simp⟩
  rw [Nat.add_right_comm]
  exact foldl_ext _ _ _ fun l id _ => visit_deeper acyclic (start id) more

/-! ### Laws of a finished layout -/

/-- Exactly the declared classes are laid out, each by its fields and methods from what its superclass has in the
    end. Nothing here depends on the order of the classes. -/
structure Settled (decls : Declarations) (l : Layout) : Prop where
  placed : ∀ {id c}, decls.classes.get? id = some c → FieldsPlaced decls l id c (l.inheritedBody c)
  table : ∀ {id c}, decls.classes.get? id = some c →
    l.vtables.get? id = some (placeMethods (virtualMethods decls c id) (l.inheritedTable c, l.slots)).1
  slots : ∀ {id c m}, decls.classes.get? id = some c → m ∈ virtualMethods decls c id →
    l.slots.get? m.id = (placeMethods (virtualMethods decls c id) (l.inheritedTable c, l.slots)).2.get? m.id
  body_declared : ∀ {id body}, l.bodies.get? id = some body → ∃ c, decls.classes.get? id = some c
  table_declared : ∀ {id table}, l.vtables.get? id = some table → ∃ c, decls.classes.get? id = some c

theorem declared_of_has (has : (ofDeclarations decls).Has id) : ∃ c, decls.classes.get? id = some c := by
  revert has
  refine ofDeclarations_induction (P := fun l => l.Has id → ∃ c, decls.classes.get? id = some c) ?_ ?_
  · rintro ⟨_,found⟩
    exact nomatch found
  · intro l other c declared known has
    rcases has_placeClass.mp has with rfl | old
    · exact ⟨c,declared⟩
    · exact known old

theorem settled_ofDeclarations (named : decls.Named) (acyclic : decls.Acyclic) (once : decls.FieldsOnce) :
    Settled decls (ofDeclarations decls) := by
  have tables := tablesSound_ofDeclarations named acyclic
  refine ⟨fun {id c} declared => ?_,fun declared => tables.table declared (has_ofDeclarations declared),
    fun declared => tables.slots declared (has_ofDeclarations declared),fun found => declared_of_has ⟨_,found⟩,
    fun found => declared_of_has (tables.laid found)⟩
  have has := has_ofDeclarations declared
  have body := bodiesExtend_ofDeclarations acyclic id c declared has
  obtain ⟨inherited,-,placed⟩ := (bodiesSound_ofDeclarations once).placed declared has
  have same : inherited = (ofDeclarations decls).inheritedBody c :=
    append_cancel_right (Prod.mk.inj (mem_unique placed.body body)).2
  exact same ▸ placed

theorem Settled.reordered {classes : Table ClassId ClassDecl} (settled : Settled { decls with classes } l)
    (reordered : classes.entries.Perm decls.classes.entries) : Settled decls l := by
  have same := fun id => Declarations.get?_reordered reordered id
  constructor
  case placed =>
    intro id c declared
    have placed := settled.placed ((same id).trans declared)
    exact ⟨placed.body,placed.index⟩
  case table => exact fun {id _} declared => settled.table ((same id).trans declared)
  case slots => exact fun {id _ _} declared => settled.slots ((same id).trans declared)
  case body_declared => exact fun {id _} found => same id ▸ settled.body_declared found
  case table_declared => exact fun {id _} found => same id ▸ settled.table_declared found

theorem nodup_declaredFields {fields : List FieldId} (distinct : fields.Nodup) : (declaredFields decls fields).Nodup := by
  refine distinct.filterMap fun a b e first second => ?_
  obtain ⟨_,-,rfl⟩ := map_eq_some_iff.mp first
  obtain ⟨_,-,same⟩ := map_eq_some_iff.mp second
  exact (Prod.mk.inj same).1.symm

theorem FieldsPlaced.index_eq {l' : Layout} {inherited : List NativeType} {field : FieldDecl}
    (placed : FieldsPlaced decls l id c inherited) (placed' : FieldsPlaced decls l' id c inherited)
    (distinct : c.fields.Nodup) (inside : f ∈ c.fields) (declared : decls.fields.get? f = some field) :
    l.fieldIndices.get? f = l'.fieldIndices.get? f := by
  obtain ⟨i,index,there⟩ := placed.index (mem_declaredFields.mpr ⟨inside,declared⟩)
  obtain ⟨j,index',there'⟩ := placed'.index (mem_declaredFields.mpr ⟨inside,declared⟩)
  have bound := (List.getElem?_eq_some_iff.mp there).1
  obtain rfl : i = j := (getElem?_inj bound (nodup_declaredFields distinct)).mp (there.trans there'.symm)
  rw [index,index']

/-! ### Agreement -/

/-- What a layout knows, another one knows too, and alike. -/
structure Within (l final : Layout) : Prop where
  bodies : ∀ {id body}, l.bodies.get? id = some body → final.bodies.get? id = some body
  fields : ∀ {f i}, l.fieldIndices.get? f = some i → final.fieldIndices.get? f = some i
  vtables : ∀ {id table}, l.vtables.get? id = some table → final.vtables.get? id = some table
  slots : ∀ {m i}, l.slots.get? m = some i → final.slots.get? m = some i

theorem Within.inherited (within : Within l final) (settled : Settled decls final) (sound : TablesSound decls l)
    (order : InOrder decls l id c) : l.inheritedBody c = final.inheritedBody c ∧ l.inheritedTable c = final.inheritedTable c := by
  unfold inheritedBody inheritedTable
  cases named : c.superclass with
  | none => exact ⟨rfl,rfl⟩
  | some superclass =>
    cases declared : decls.classes.get? superclass with
    | some s =>
      obtain ⟨body,found⟩ := order.ready superclass s named declared
      have table := sound.table declared ⟨body,found⟩
      simp [found,within.bodies found,table,within.vtables table]
    | none =>
      -- A superclass that is not declared has neither body nor table, now or in the end.
      have unknown : ¬ ∃ s, decls.classes.get? superclass = some s := by simp [declared]
      have body : final.bodies.get? superclass = none :=
        eq_none_iff_forall_ne_some.mpr fun _ found => unknown (settled.body_declared found)
      have table : final.vtables.get? superclass = none :=
        eq_none_iff_forall_ne_some.mpr fun _ found => unknown (settled.table_declared found)
      have body' : l.bodies.get? superclass = none :=
        eq_none_iff_forall_ne_some.mpr fun _ found => some_ne_none _ ((within.bodies found).symm.trans body)
      have table' : l.vtables.get? superclass = none :=
        eq_none_iff_forall_ne_some.mpr fun _ found => some_ne_none _ ((within.vtables found).symm.trans table)
      simp [body,table,body',table']

theorem Within.placeClass (within : Within l final) (settled : Settled decls final) (once : decls.FieldsOnce)
    (sound : TablesSound decls l) (order : InOrder decls l id c) : Within (placeClass decls l id c) final := by
  obtain ⟨sameBody,sameTable⟩ := within.inherited settled sound order
  have placed := settled.placed order.declared
  constructor
  case bodies =>
    intro other entry found
    rw [bodies_placeClass,sameBody] at found
    exact of_insert found placed.body within.bodies
  case fields =>
    intro f i found
    by_cases declared : f ∈ c.fields ∧ ∃ field, decls.fields.get? f = some field
    · obtain ⟨inside,field,known⟩ := declared
      rw [← sameBody] at placed
      rw [placed.index_eq (.own once order.declared) (once.nodup order.declared) inside known]
      exact found
    · rw [fieldIndices_placeClass,placeFields_index_of_undeclared fun inside =>
        eq_none_iff_forall_ne_some.mpr fun field known => declared ⟨inside,field,known⟩] at found
      exact within.fields found
  case vtables =>
    intro other table found
    rw [vtables_placeClass,sameTable] at found
    refine of_insert found ?_ within.vtables
    rw [settled.table order.declared]
    exact congrArg some placeMethods_table
  case slots =>
    intro x i found
    rw [slots_placeClass,sameTable] at found
    by_cases own : ∃ m ∈ virtualMethods decls c id, m.id = x
    · obtain ⟨m,inside,rfl⟩ := own
      rw [settled.slots order.declared inside,← found]
      exact placeMethods_slot ⟨m,inside,rfl⟩
    · rw [placeMethods_slot_of_notMem fun m inside same => own ⟨m,inside,same⟩] at found
      exact within.slots found

theorem within_of_settled (named : decls.Named) (acyclic : decls.Acyclic) (once : decls.FieldsOnce)
    (settled : Settled decls final) : Within (ofDeclarations decls) final := by
  refine (ofDeclarations_ordered (P := fun l => TablesSound decls l ∧ Within l final) acyclic ?_ ?_).2.2
  · exact ⟨tablesSound_empty,(nomatch ·),(nomatch ·),(nomatch ·),(nomatch ·)⟩
  · exact fun order known => ⟨known.1.placeClass named acyclic order,known.2.placeClass settled once known.1 order⟩

theorem Within.antisymm (within : Within l final) (within' : Within final l) :
    (∀ cls, l.bodyType cls = final.bodyType cls ∧ l.descriptorType cls = final.descriptorType cls) ∧
      (∀ field, l.fieldIndex field = final.fieldIndex field) ∧ ∀ function, l.vtableSlot function = final.vtableSlot function := by
  have bodies : ∀ cls, l.bodies.get? cls = final.bodies.get? cls := fun _ => ext fun _ => ⟨within.bodies,within'.bodies⟩
  have fields : ∀ f, l.fieldIndices.get? f = final.fieldIndices.get? f := fun _ => ext fun _ => ⟨within.fields,within'.fields⟩
  have vtables : ∀ cls, l.vtables.get? cls = final.vtables.get? cls := fun _ => ext fun _ => ⟨within.vtables,within'.vtables⟩
  have slots : ∀ m, l.slots.get? m = final.slots.get? m := fun _ => ext fun _ => ⟨within.slots,within'.slots⟩
  refine ⟨fun cls => ⟨?_,?_⟩,fun field => ?_,fun function => ?_⟩
  · simp only [bodyType,bodies]
  · simp only [descriptorType,vtables,bodies]
  · simp only [fieldIndex,fields]
  · simp only [vtableSlot,slots]

/-- Declarations that differ in the order of their classes give the same bodies, descriptors, indices and slots,
    and no chain of superclasses is cut off: a larger bound on the depth gives the same layout. -/
theorem ofDeclarations_reordered {classes : Table ClassId ClassDecl} (reordered : classes.entries.Perm decls.classes.entries)
    (named : decls.Named) (acyclic : decls.Acyclic) (once : decls.FieldsOnce) :
    (∀ cls, (ofDeclarations { decls with classes }).bodyType cls = (ofDeclarations decls).bodyType cls ∧
      (ofDeclarations { decls with classes }).descriptorType cls = (ofDeclarations decls).descriptorType cls) ∧
    (∀ field, (ofDeclarations { decls with classes }).fieldIndex field = (ofDeclarations decls).fieldIndex field) ∧
    (∀ function, (ofDeclarations { decls with classes }).vtableSlot function = (ofDeclarations decls).vtableSlot function) ∧
    ∀ depth, decls.classes.size < depth → decls.classes.keys.foldl (visit decls depth) empty = ofDeclarations decls := by
  have settled := settled_ofDeclarations named acyclic once
  have named' : Declarations.Named { decls with classes } := named
  have acyclic' := acyclic.reordered reordered
  have once' := once.reordered reordered
  have within := within_of_settled named acyclic once ((settled_ofDeclarations named' acyclic' once').reordered reordered)
  have within' := within_of_settled named' acyclic' once' (@Settled.reordered { decls with classes } _ _ settled reordered.symm)
  obtain ⟨classTypes,fields,slots⟩ := within'.antisymm within
  exact ⟨classTypes,fields,slots,fun depth => ofDeclarations_deeper acyclic⟩

end Layout

/-- The classes of the hierarchy in the opposite order. -/
def reversedShapes : Table ClassId ClassDecl := .ofList shapeDecls.classes.entries.reverse

theorem shapes_reordered : reversedShapes.entries.Perm shapeDecls.classes.entries ∧ shapeDecls.Named ∧ shapeDecls.Acyclic ∧
    shapeDecls.FieldsOnce ∧ reversedShapes.keys ≠ shapeDecls.classes.keys ∧
    ∀ function, (Layout.ofDeclarations { shapeDecls with classes := reversedShapes }).vtableSlot function =
      (Layout.ofDeclarations shapeDecls).vtableSlot function := by
  have reordered : reversedShapes.entries.Perm shapeDecls.classes.entries := by
    rw [reversedShapes,entries_ofList (by decide)]
    exact reverse_perm _
  have named : shapeDecls.Named := Declarations.named_ofLists _ _ _
  have once : shapeDecls.FieldsOnce := by decide
  exact ⟨reordered,named,acyclic_shapeDecls,once,by decide,(Layout.ofDeclarations_reordered reordered named acyclic_shapeDecls once).2.2.1⟩

end BlockLowering
