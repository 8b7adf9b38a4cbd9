import BlockLowering.Proofs.Placement
import Mathlib.Data.List.Perm.Subperm
import Mathlib.Logic.Relation
/-!
The order in which classes are laid out. Whatever the superclasses are, every declared class is laid out.
Without cycles a class is laid out once, after its superclass: a chain of superclasses is no longer than
the number of classes, so the bound on the depth is never met.
-/
namespace BlockLowering
open List Table

namespace Declarations
variable {d : Declarations}

/-- A declared class names another one as its superclass. -/
def Extends (d : Declarations) (sub superclass : ClassId) : Prop :=
  ∃ c, d.classes.get? sub = some c ∧ c.superclass = some superclass

/-- No class is among its own superclasses. -/
def Acyclic (d : Declarations) : Prop := ∀ id, ¬ Relation.TransGen d.Extends id id

/-- Every function is declared under its own number. -/
def Named (d : Declarations) : Prop := ∀ id f, d.functions.get? id = some f → f.id = id

theorem Acyclic.of_rank (rank : ClassId → Nat)
    (falls : ∀ e ∈ d.classes.entries, ∀ superclass ∈ e.2.superclass, rank superclass < rank e.1) : d.Acyclic := by
  have lower : ∀ {sub superclass}, Relation.TransGen d.Extends sub superclass → rank superclass < rank sub := by
    intro sub superclass path
    induction path with
    | single step =>
      obtain ⟨c,found,named⟩ := step
      exact falls _ (mem_entries_iff.mpr found) _ named
    | tail _ step ih =>
      obtain ⟨c,found,named⟩ := step
      exact Nat.lt_trans (falls _ (mem_entries_iff.mpr found) _ named) ih
  exact fun id cycle => Nat.lt_irrefl _ (lower cycle)

theorem named_ofLists (classes : List ClassDecl) (functions : List FunctionDecl) (fields : List FieldDecl) :
    (ofLists classes functions fields).Named := by
  refine foldlRecOn fields addField ?_ fun d named _ _ => named
  refine foldlRecOn functions addFunction ?_ fun d named f _ => ?_
  · exact foldlRecOn classes addClass (fun _ _ found => nomatch found) fun d named _ _ => named
  · exact fun id f' found => of_insert found rfl (named id f')

theorem Acyclic.ne (acyclic : d.Acyclic) {sub superclass : ClassId} (extends' : d.Extends sub superclass) : superclass ≠ sub := by
  rintro rfl
  exact acyclic _ (.single extends')

end Declarations

namespace Layout
variable {decls : Declarations} {l : Layout} {id x : ClassId} {c : ClassDecl} {depth : Nat}
variable {P : Layout → Prop} {trail : List ClassId}

def Has (l : Layout) (id : ClassId) : Prop := ∃ body, l.bodies.get? id = some body

/-- The superclass of a class is laid out, if it is declared. -/
def Ready (decls : Declarations) (l : Layout) (c : ClassDecl) : Prop :=
  ∀ superclass s, c.superclass = some superclass → decls.classes.get? superclass = some s → l.Has superclass

/-- The superclasses of what is laid out are laid out too. -/
def Closed (decls : Declarations) (l : Layout) : Prop :=
  ∀ id c, decls.classes.get? id = some c → l.Has id → Ready decls l c

def inheritedBody (l : Layout) (c : ClassDecl) : List NativeType :=
  ((c.superclass.bind l.bodies.get?).map Prod.snd).getD bareBody

def inheritedTable (l : Layout) (c : ClassDecl) : List FunctionId := (c.superclass.bind l.vtables.get?).getD []

/-! ### One class -/

theorem bodies_placeClass : (placeClass decls l id c).bodies =
    l.bodies.insert id (c.name, l.inheritedBody c ++ storageTypes decls c.fields) := by
  rw [← @placeFields_body decls c.fields (l.inheritedBody c) l.fieldIndices]
  rfl

theorem fieldIndices_placeClass : (placeClass decls l id c).fieldIndices =
    (placeFields decls c.fields (l.inheritedBody c, l.fieldIndices)).2 := rfl

theorem vtables_placeClass : (placeClass decls l id c).vtables =
    l.vtables.insert id (placeMethods (virtualMethods decls c id) (l.inheritedTable c, l.slots)).1 := rfl

theorem slots_placeClass : (placeClass decls l id c).slots =
    (placeMethods (virtualMethods decls c id) (l.inheritedTable c, l.slots)).2 := rfl

theorem has_placeClass : (placeClass decls l id c).Has x ↔ x = id ∨ l.Has x := by
  unfold Has
  rw [bodies_placeClass]
  by_cases here : x = id <;> simp [here]

theorem inherited_placeClass {other : ClassDecl} (apart : ∀ superclass, other.superclass = some superclass → superclass ≠ id) :
    (placeClass decls l id c).inheritedBody other = l.inheritedBody other ∧
      (placeClass decls l id c).inheritedTable other = l.inheritedTable other := by
  unfold inheritedBody inheritedTable
  cases named : other.superclass with
  | none => exact ⟨rfl,rfl⟩
  | some superclass =>
    have other := apart superclass named
    simp [bodies_placeClass,vtables_placeClass,other]

/-! ### Visits -/

theorem visit_induction (placed : ∀ {l id c}, decls.classes.get? id = some c → P l → P (placeClass decls l id c)) (holds : P l) :
    P (visit decls depth l id) := by
  induction depth generalizing l id with
  | zero => exact holds
  | succ depth ih =>
    unfold visit
    split
    · exact holds
    · cases declared : decls.classes.get? id with
      | none => exact holds
      | some c =>
        refine placed declared ?_
        cases c.superclass with
        | none => exact holds
        | some superclass => exact ih holds

theorem Has.visit (has : l.Has x) : (visit decls depth l id).Has x :=
  visit_induction (P := fun l => l.Has x) (fun _ has => has_placeClass.mpr (.inr has)) has

theorem has_visit_self (declared : decls.classes.get? id = some c) : (visit decls (depth + 1) l id).Has id := by
  unfold visit
  split
  · exact contains_iff.mp ‹_›
  · rw [declared]
    exact has_placeClass.mpr (.inl rfl)

theorem has_visit_of_unreached (unreached : ¬ Relation.ReflTransGen decls.Extends id x) : (visit decls depth l id).Has x ↔ l.Has x := by
  induction depth generalizing l id with
  | zero => exact Iff.rfl
  | succ depth ih =>
    unfold visit
    split
    · exact Iff.rfl
    · cases declared : decls.classes.get? id with
      | none => exact Iff.rfl
      | some c =>
        have other : x ≠ id := by
          rintro rfl
          exact unreached .refl
        rw [has_placeClass,or_iff_right other]
        cases named : c.superclass with
        | none => exact Iff.rfl
        | some superclass => exact ih fun path => unreached (.head ⟨c,declared,named⟩ path)

/-- The classes that are being laid out, from the one that was asked for to a superclass of it. They differ
    from each other, and with the depth that is left they make up the bound. -/
structure Trail (decls : Declarations) (trail : List ClassId) (id : ClassId) (depth : Nat) : Prop where
  distinct : trail.Nodup
  declared : trail ⊆ decls.classes.keys
  below : ∀ x ∈ trail, Relation.TransGen decls.Extends x id
  bound : decls.classes.size + 1 = trail.length + depth

theorem Trail.depth_pos (on : Trail decls trail id depth) : 0 < depth := by
  have short : trail.length ≤ decls.classes.keys.length := (on.distinct.subperm on.declared).length_le
  have size : decls.classes.keys.length = decls.classes.size := length_map ..
  have bound := on.bound
  omega

theorem Trail.step {superclass : ClassId} (on : Trail decls trail id (depth + 1)) (acyclic : decls.Acyclic)
    (declared : decls.classes.get? id = some c) (named : c.superclass = some superclass) : Trail decls (id :: trail) superclass depth where
  distinct := nodup_cons.mpr ⟨fun inside => acyclic id (on.below id inside),on.distinct⟩
  declared := cons_subset.mpr ⟨mem_keys_iff.mpr ⟨c,declared⟩,on.declared⟩
  below x inside := by
    have last : decls.Extends id superclass := ⟨c,declared,named⟩
    rcases mem_cons.mp inside with rfl | inside
    · exact .single last
    · exact .tail (on.below x inside) last
  bound := by
    have bound := on.bound
    simp only [length_cons]
    omega

/-- A placement in order: of a declared class that is not laid out yet, after its superclass. -/
structure InOrder (decls : Declarations) (l : Layout) (id : ClassId) (c : ClassDecl) : Prop where
  declared : decls.classes.get? id = some c
  new : ¬ l.Has id
  ready : Ready decls l c
  closed : Closed decls l

theorem InOrder.closed_placeClass (order : InOrder decls l id c) : Closed decls (placeClass decls l id c) := by
  intro other c' declared has superclass s named there
  rw [has_placeClass] at has ⊢
  by_cases here : other = id
  · subst here
    obtain rfl := Option.mem_unique order.declared declared
    exact .inr (order.ready superclass s named there)
  · exact .inr (order.closed other c' declared (has.resolve_left here) superclass s named there)

theorem InOrder.apart {other : ClassId} {c' superclass} (order : InOrder decls l id c) (declared : decls.classes.get? other = some c')
    (has : l.Has other) (named : c'.superclass = some superclass) : superclass ≠ id := by
  rintro rfl
  exact order.new (order.closed other c' declared has superclass c named order.declared)

/-- Without cycles every placement of a visit is in order, and what such placements keep, the visit keeps. -/
theorem visit_ordered (acyclic : decls.Acyclic)
    (placed : ∀ {l id c}, InOrder decls l id c → P l → P (placeClass decls l id c)) (on : Trail decls trail id depth)
    (closed : Closed decls l) (holds : P l) : Closed decls (visit decls depth l id) ∧ P (visit decls depth l id) := by
  induction depth generalizing l id trail with
  | zero => exact absurd on.depth_pos (Nat.lt_irrefl 0)
  | succ depth ih =>
    unfold visit
    split
    · exact ⟨closed,holds⟩
    · rename_i new
      have new : ¬ l.Has id := fun has => new (contains_iff.mpr has)
      cases declared : decls.classes.get? id with
      | none => exact ⟨closed,holds⟩
      | some c =>
        cases named : c.superclass with
        | none =>
          simp only [named]
          have order : InOrder decls l id c := ⟨declared,new,fun _ _ other => by simp [named] at other,closed⟩
          exact ⟨order.closed_placeClass,placed order holds⟩
        | some superclass =>
          simp only [named]
          have further := on.step acyclic declared named
          obtain ⟨closed',holds'⟩ := ih further closed holds
          have order : InOrder decls (visit decls depth l superclass) id c := by
            refine ⟨declared,?_,?_,closed'⟩
            · rw [has_visit_of_unreached fun path => acyclic id (.head' ⟨c,declared,named⟩ path)]
              exact new
            · intro _ s same there
              obtain rfl := Option.mem_unique named same
              obtain ⟨rest,rfl⟩ := Nat.exists_eq_add_one_of_ne_zero (Nat.ne_of_gt further.depth_pos)
              exact has_visit_self there
          exact ⟨order.closed_placeClass,placed order holds'⟩

/-! ### All classes -/

theorem has_ofDeclarations (declared : decls.classes.get? id = some c) : (ofDeclarations decls).Has id := by
  have visited : ∀ (keys : List ClassId) (l : Layout), (l.Has id ∨ id ∈ keys) →
      (keys.foldl (visit decls (decls.classes.size + 1)) l).Has id := by
    intro keys
    induction keys with
    | nil => exact fun l has => has.resolve_right (by simp)
    | cons first rest ih =>
      refine fun l has => ih _ ?_
      rcases has with has | inside
      · exact .inl has.visit
      · rcases mem_cons.mp inside with rfl | later
        · exact .inl (has_visit_self declared)
        · exact .inr later
  exact visited _ _ (.inr (mem_keys_iff.mpr ⟨c,declared⟩))

theorem ofDeclarations_induction (start : P empty)
    (placed : ∀ {l id c}, decls.classes.get? id = some c → P l → P (placeClass decls l id c)) : P (ofDeclarations decls) :=
  foldlRecOn (motive := P) _ _ start fun _ holds _ _ => visit_induction placed holds

theorem ofDeclarations_ordered (acyclic : decls.Acyclic) (start : P empty)
    (placed : ∀ {l id c}, InOrder decls l id c → P l → P (placeClass decls l id c)) :
    Closed decls (ofDeclarations decls) ∧ P (ofDeclarations decls) := by
  have nothing : Closed decls empty := by
    rintro id c - ⟨body,found⟩
    exact nomatch found
  refine foldlRecOn (motive := fun l => Closed decls l ∧ P l) _ _ ⟨nothing,start⟩ fun l holds first _ => ?_
  have start : Trail decls [] first (decls.classes.size + 1) := ⟨nodup_nil,nil_subset _,by simp,by simp⟩
  exact visit_ordered acyclic placed start holds.1 holds.2

end Layout

end BlockLowering
