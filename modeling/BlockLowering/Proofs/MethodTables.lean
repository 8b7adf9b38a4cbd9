import BlockLowering.Proofs.Hierarchy
/-!
Method tables along superclasses. A table starts as that of the superclass, keeps its length or grows, and
changes an entry only for a method that overrides it. Every entry stands at the slot that is noted for it,
and every method of a class that no other method of the class overrides is in the table of the class.
-/
namespace BlockLowering
open List Table

namespace Declarations
variable {d : Declarations} {cls other : ClassId} {m o : FunctionDecl}

/-- A method of a class that is called through method tables: it may be overridden, or overrides another. -/
structure Virtual (d : Declarations) (cls : ClassId) (m : FunctionDecl) : Prop where
  declared : m ∈ d.functions.values
  owner : m.owner = some cls
  method : m.kind = .method
  dispatched : m.isOverridable = true ∨ m.overrides ≠ none

/-- No method overrides a method of its own class. -/
def OverridesOutside (d : Declarations) : Prop := ∀ cls m o, d.Virtual cls m → d.Virtual cls o → m.overrides ≠ some o.id

theorem Named.eq_of_id (named : d.Named) (declared : m ∈ d.functions.values) (declared' : o ∈ d.functions.values)
    (same : m.id = o.id) : m = o := by
  obtain ⟨id,found⟩ := mem_values_iff.mp declared
  obtain ⟨id',found'⟩ := mem_values_iff.mp declared'
  obtain rfl : id = id' := (named id m found).symm.trans (same.trans (named id' o found'))
  exact Option.mem_unique found found'

theorem Named.nodup_ids (named : d.Named) : (d.functions.values.map FunctionDecl.id).Nodup := by
  have keys : d.functions.values.map FunctionDecl.id = d.functions.entries.map Prod.fst := by
    rw [values,map_map]
    exact map_congr_left fun e inside => named e.1 e.2 (mem_entries_iff.mp inside)
  rw [keys]
  exact d.functions.nodup

theorem Virtual.id_ne (named : d.Named) (here : d.Virtual cls m) (there : d.Virtual other o) (different : cls ≠ other) : m.id ≠ o.id := by
  intro same
  obtain rfl := named.eq_of_id here.declared there.declared same
  exact different (Option.mem_unique here.owner there.owner)

end Declarations

namespace Layout
variable {decls : Declarations} {l : Layout} {id other : ClassId} {c c' : ClassDecl} {m o : FunctionDecl} {table : List FunctionId}

theorem mem_virtualMethods : m ∈ virtualMethods decls c id ↔ c.kind ≠ .interface ∧ decls.Virtual id m := by
  unfold virtualMethods
  split
  · rename_i interface
    simp [interface]
  · rename_i concrete
    simp only [mem_filter,Bool.and_eq_true,beq_iff_eq,Bool.or_eq_true,Option.isSome_iff_ne_none]
    constructor
    · rintro ⟨declared,⟨owner,method⟩,dispatched⟩
      exact ⟨concrete,declared,owner,method,dispatched⟩
    · rintro ⟨-,virtual⟩
      exact ⟨virtual.declared,⟨virtual.owner,virtual.method⟩,virtual.dispatched⟩

theorem nodup_virtualMethods (named : decls.Named) : ((virtualMethods decls c id).map FunctionDecl.id).Nodup := by
  unfold virtualMethods
  split
  · exact nodup_nil
  · exact (filter_sublist.map FunctionDecl.id).nodup named.nodup_ids

theorem Closed.has (closed : Closed decls l) (path : Relation.ReflTransGen decls.Extends id other)
    (has : l.Has id) (declared : decls.classes.get? other = some c) : l.Has other := by
  induction path using Relation.ReflTransGen.head_induction_on with
  | refl => exact has
  | @head sub superclass step rest ih =>
    obtain ⟨c',found,named⟩ := step
    have known : ∃ s, decls.classes.get? superclass = some s := by
      rcases rest.cases_head with rfl | ⟨_,⟨s,there,_⟩,_⟩
      · exact ⟨c,declared⟩
      · exact ⟨s,there⟩
    obtain ⟨s,there⟩ := known
    exact ih (closed sub c' found has superclass s named there)

/-- Method tables are made in the order of the superclasses: each from that of the superclass by placing the
    methods of the class; what stands in it are methods of the class and its superclasses, at their slots. -/
structure TablesSound (decls : Declarations) (l : Layout) : Prop where
  table : ∀ {id c}, decls.classes.get? id = some c → l.Has id →
    l.vtables.get? id = some (placeMethods (virtualMethods decls c id) (l.inheritedTable c, l.slots)).1
  slots : ∀ {id c m}, decls.classes.get? id = some c → l.Has id → m ∈ virtualMethods decls c id →
    l.slots.get? m.id = (placeMethods (virtualMethods decls c id) (l.inheritedTable c, l.slots)).2.get? m.id
  laid : ∀ {id table}, l.vtables.get? id = some table → l.Has id
  owned : ∀ {id table x}, l.vtables.get? id = some table → x ∈ table →
    ∃ owner c m, Relation.ReflTransGen decls.Extends id owner ∧ decls.classes.get? owner = some c ∧
      m ∈ virtualMethods decls c owner ∧ m.id = x
  standing : ∀ {id table}, l.vtables.get? id = some table → Standing table l.slots

section
variable (sound : TablesSound decls l)
include sound

theorem TablesSound.owned_inherited {x : FunctionId} (declared : decls.classes.get? id = some c)
    (inside : x ∈ l.inheritedTable c) : ∃ owner c' m, Relation.TransGen decls.Extends id owner ∧
      decls.classes.get? owner = some c' ∧ m ∈ virtualMethods decls c' owner ∧ m.id = x := by
  unfold inheritedTable at inside
  cases found : c.superclass.bind l.vtables.get? with
  | none => simp [found] at inside
  | some table =>
    obtain ⟨superclass,named,there⟩ := Option.bind_eq_some_iff.mp found
    obtain ⟨owner,c',m,path,known,method,same⟩ := sound.owned there (by simpa [found] using inside)
    exact ⟨owner,c',m,.head' ⟨c,declared,named⟩ path,known,method,same⟩

theorem TablesSound.standing_inherited : Standing (l.inheritedTable c) l.slots := by
  unfold inheritedTable
  cases found : c.superclass.bind l.vtables.get? with
  | none => simp [Standing]
  | some table =>
    obtain ⟨superclass,-,there⟩ := Option.bind_eq_some_iff.mp found
    exact sound.standing there

theorem TablesSound.fresh (named : decls.Named) (acyclic : decls.Acyclic)
    (declared : decls.classes.get? id = some c) : Fresh (virtualMethods decls c id) (l.inheritedTable c) := by
  refine ⟨nodup_virtualMethods named,fun m inside listed => ?_⟩
  obtain ⟨owner,c',m',path,-,method,same⟩ := sound.owned_inherited declared listed
  have different : owner ≠ id := by
    rintro rfl
    exact acyclic owner path
  exact (mem_virtualMethods.mp method).2.id_ne named (mem_virtualMethods.mp inside).2 different same

theorem TablesSound.placeClass (named : decls.Named) (acyclic : decls.Acyclic)
    (order : InOrder decls l id c) : TablesSound decls (placeClass decls l id c) := by
  have fresh := sound.fresh named acyclic order.declared
  have inherits : (Layout.placeClass decls l id c).inheritedTable c = l.inheritedTable c :=
    (inherited_placeClass fun _ superclass => acyclic.ne ⟨c,order.declared,superclass⟩).2
  -- The slots of what was laid out before do not change: its methods are not those of the new class.
  have others : ∀ {other c' x}, l.Has other → decls.classes.get? other = some c' → (∃ m ∈ virtualMethods decls c' other, m.id = x) →
      (Layout.placeClass decls l id c).slots.get? x = l.slots.get? x := by
    rintro other c' x has declared ⟨m,method,rfl⟩
    have different : id ≠ other := by
      rintro rfl
      exact order.new has
    exact placeMethods_slot_of_notMem fun m' inside =>
      (mem_virtualMethods.mp inside).2.id_ne named (mem_virtualMethods.mp method).2 different
  constructor
  case table =>
    intro other c' declared has
    rw [vtables_placeClass,get?_insert]
    split
    · rename_i here
      subst here
      obtain rfl := Option.mem_unique order.declared declared
      rw [inherits]
      exact congrArg some placeMethods_table
    · rename_i different
      have has := (has_placeClass.mp has).resolve_left different
      rw [(inherited_placeClass fun _ superclass => order.apart declared has superclass).2,sound.table declared has]
      exact congrArg some placeMethods_table
  case slots =>
    intro other c' m declared has method
    by_cases here : other = id
    · subst here
      obtain rfl := Option.mem_unique order.declared declared
      rw [inherits]
      conv_lhs => rw [slots_placeClass]
      exact placeMethods_slot ⟨m,method,rfl⟩
    · have has := (has_placeClass.mp has).resolve_left here
      rw [(inherited_placeClass fun _ superclass => order.apart declared has superclass).2,
        others has declared ⟨m,method,rfl⟩,sound.slots declared has method]
      exact placeMethods_slot ⟨m,method,rfl⟩
  case laid =>
    intro other table found
    rw [has_placeClass]
    exact of_insert found (.inl rfl) fun old => .inr (sound.laid old)
  case owned =>
    intro other table x found inside
    rcases insert_cases found with ⟨rfl,rfl⟩ | old
    · rcases mem_placeMethods inside with listed | ⟨m,method,same⟩
      · obtain ⟨owner,c',m,path,known,method,same⟩ := sound.owned_inherited order.declared listed
        exact ⟨owner,c',m,path.to_reflTransGen,known,method,same⟩
      · exact ⟨other,c,m,.refl,order.declared,method,same⟩
    · exact sound.owned old inside
  case standing =>
    intro other table found
    refine of_insert found (sound.standing_inherited.placeMethods fresh) fun old i x there => ?_
    obtain ⟨owner,c',m,path,known,method,same⟩ := sound.owned old (mem_of_getElem? there)
    rw [others (order.closed.has path (sound.laid old) known) known ⟨m,method,same⟩]
    exact sound.standing old i x there

end

theorem tablesSound_empty : TablesSound decls empty := by
  constructor
  case table => rintro id c - ⟨_,found⟩; exact nomatch found
  case slots => rintro id c m - ⟨_,found⟩; exact nomatch found
  case laid => exact (nomatch ·)
  case owned => exact (nomatch ·)
  case standing => exact (nomatch ·)

theorem tablesSound_ofDeclarations (named : decls.Named) (acyclic : decls.Acyclic) : TablesSound decls (ofDeclarations decls) :=
  (ofDeclarations_ordered acyclic tablesSound_empty fun order sound => sound.placeClass named acyclic order).2

end Layout

end BlockLowering
