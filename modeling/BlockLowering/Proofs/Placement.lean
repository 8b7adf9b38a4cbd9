import BlockLowering.Layout
import BlockLowering.Proofs.Tables
import Mathlib.Data.List.Nodup
/-!
Fields in a body and methods in a table, placed one after another. Fields are appended, so that a body
keeps what it starts with and every declared field has an index of its own. A method takes the place of
the method it overrides, or a new one at the end: entries never move, and an entry changes only when it
is overridden.
-/
namespace BlockLowering.Layout
open List

/-! ### Fields -/

section Fields
variable {decls : Declarations} {fields : List FieldId} {body : List NativeType} {indices : Table FieldId Nat}
  {id : FieldId} {field : FieldDecl}

def declaredFields (decls : Declarations) (fields : List FieldId) : List (FieldId × FieldDecl) :=
  fields.filterMap fun id => (decls.fields.get? id).map fun field => (id, field)

def storageTypes (decls : Declarations) (fields : List FieldId) : List NativeType :=
  (declaredFields decls fields).map fun entry => entry.2.ty.storage

theorem mem_declaredFields : (id, field) ∈ declaredFields decls fields ↔ id ∈ fields ∧ decls.fields.get? id = some field := by
  simp only [declaredFields,mem_filterMap,Option.map_eq_some_iff,Prod.mk.injEq]
  constructor
  · rintro ⟨_,inside,_,found,rfl,rfl⟩
    exact ⟨inside,found⟩
  · rintro ⟨inside,found⟩
    exact ⟨id,inside,field,found,rfl,rfl⟩

theorem placeFields_body : (placeFields decls fields (body, indices)).1 = body ++ storageTypes decls fields := by
  induction fields generalizing body indices with
  | nil => simp [placeFields,storageTypes,declaredFields]
  | cons first rest ih =>
    unfold placeFields
    cases found : decls.fields.get? first with
    | none => simp [ih,storageTypes,declaredFields,found]
    | some field => simp [ih,storageTypes,declaredFields,found]

theorem placeFields_index_of_undeclared (undeclared : id ∈ fields → decls.fields.get? id = none) :
    (placeFields decls fields (body, indices)).2.get? id = indices.get? id := by
  induction fields generalizing body indices with
  | nil => rfl
  | cons first rest ih =>
    have later := fun inside => undeclared (mem_cons_of_mem first inside)
    unfold placeFields
    cases found : decls.fields.get? first with
    | none => exact ih later
    | some field =>
      have other : id ≠ first := by
        rintro rfl
        exact nomatch found.symm.trans (undeclared (.head _))
      simp [ih later,other]

theorem placeFields_index (distinct : fields.Nodup) (inside : (id, field) ∈ declaredFields decls fields) :
    ∃ i, (placeFields decls fields (body, indices)).2.get? id = some (body.length + i) ∧
      (declaredFields decls fields)[i]? = some (id, field) := by
  induction fields generalizing body indices with
  | nil => simp [declaredFields] at inside
  | cons first rest ih =>
    obtain ⟨once,distinct⟩ := nodup_cons.mp distinct
    unfold placeFields
    cases found : decls.fields.get? first with
    | none =>
      have same : declaredFields decls (first :: rest) = declaredFields decls rest := by simp [declaredFields,found]
      rw [same] at inside ⊢
      exact ih distinct inside
    | some own =>
      have first_rest : declaredFields decls (first :: rest) = (first, own) :: declaredFields decls rest := by
        simp [declaredFields,found]
      rw [first_rest] at inside ⊢
      rcases mem_cons.mp inside with same | later
      · obtain ⟨rfl,rfl⟩ := Prod.mk.inj same
        refine ⟨0,?_,rfl⟩
        simp [placeFields_index_of_undeclared fun inside => absurd inside once]
      · obtain ⟨i,index,there⟩ := @ih (body ++ [own.ty.storage]) (indices.insert first body.length) distinct later
        refine ⟨i + 1,?_,by simpa using there⟩
        rw [index,length_append,length_singleton]
        congr 1
        omega

end Fields

/-! ### Methods -/

section Methods
variable {m : FunctionDecl} {methods : List FunctionDecl} {table : List FunctionId} {slots slots' : Table FunctionId Nat}
  {x o : FunctionId} {i : Nat}
variable {rest : List FunctionDecl}

theorem placeMethod_cases (m : FunctionDecl) (table : List FunctionId) :
    (∃ o slot, m.overrides = some o ∧ table[slot]? = some o ∧ placeMethod m table = (slot, table.set slot m.id)) ∨
      ((∀ o, m.overrides = some o → o ∉ table) ∧ placeMethod m table = (table.length, table ++ [m.id])) := by
  unfold placeMethod
  cases overridden : m.overrides with
  | none => exact .inr ⟨nofun,rfl⟩
  | some o =>
    cases position : table.idxOf? o with
    | none =>
      refine .inr ⟨?_,by simp [position]⟩
      rintro _ ⟨⟩
      exact idxOf?_eq_none_iff.mp position
    | some slot =>
      obtain ⟨bound,there,-⟩ := idxOf?_eq_some_iff.mp position
      exact .inl ⟨o,slot,rfl,List.getElem?_eq_some_iff.mpr ⟨bound,there⟩,by simp [position]⟩

theorem getElem?_placeMethod (j : Nat) : (placeMethod m table).2[j]? = if j = (placeMethod m table).1 then some m.id else table[j]? := by
  rcases placeMethod_cases m table with ⟨o,slot,-,there,placed⟩ | ⟨-,placed⟩
  · have bound := (List.getElem?_eq_some_iff.mp there).1
    by_cases here : slot = j
    · simp [placed,here,here ▸ bound]
    · simp [placed,here,Ne.symm here]
  · rw [placed,getElem?_append]
    by_cases old : j < table.length
    · simp [old,Nat.ne_of_lt old]
    · by_cases last : j = table.length
      · simp [last]
      · have beyond : [m.id].length ≤ j - table.length := by simp only [length_singleton]; omega
        rw [if_neg old,if_neg last,getElem?_eq_none beyond,getElem?_eq_none (by omega)]

theorem overrides_of_taken (there : table[(placeMethod m table).1]? = some x) : m.overrides = some x := by
  rcases placeMethod_cases m table with ⟨o,slot,overrides,entry,placed⟩ | ⟨-,placed⟩
  · rw [placed,entry] at there
    rw [overrides,there]
  · simp [placed] at there

theorem length_le_placeMethod : table.length ≤ (placeMethod m table).2.length := by
  rcases placeMethod_cases m table with ⟨o,slot,-,-,placed⟩ | ⟨-,placed⟩ <;> simp [placed]

theorem mem_placeMethod (inside : x ∈ (placeMethod m table).2) : x ∈ table ∨ x = m.id := by
  rcases placeMethod_cases m table with ⟨o,slot,-,-,placed⟩ | ⟨-,placed⟩
  · rw [placed] at inside
    exact mem_or_eq_of_mem_set inside
  · simpa [placed] using inside

/-- The numbers of methods are new to a table and differ from each other. -/
def Fresh (methods : List FunctionDecl) (table : List FunctionId) : Prop :=
  (methods.map FunctionDecl.id).Nodup ∧ ∀ m ∈ methods, m.id ∉ table

theorem Fresh.tail (fresh : Fresh (m :: rest) table) : Fresh rest (placeMethod m table).2 := by
  obtain ⟨distinct,absent⟩ := fresh
  obtain ⟨once,distinct⟩ := nodup_cons.mp distinct
  refine ⟨distinct,fun other inside listed => ?_⟩
  rcases mem_placeMethod listed with old | same
  · exact absent other (.tail _ inside) old
  · exact once (mem_map.mpr ⟨other,inside,same⟩)

theorem placeMethods_cons : placeMethods (m :: rest) (table, slots) =
    placeMethods rest ((placeMethod m table).2, slots.insert m.id (placeMethod m table).1) := rfl

theorem length_le_placeMethods : table.length ≤ (placeMethods methods (table, slots)).1.length := by
  induction methods generalizing table slots with
  | nil => exact Nat.le_refl _
  | cons m rest ih => exact Nat.le_trans length_le_placeMethod ih

theorem placeMethods_table : (placeMethods methods (table, slots)).1 = (placeMethods methods (table, slots')).1 := by
  induction methods generalizing table slots slots' with
  | nil => rfl
  | cons m rest ih => exact ih

theorem mem_placeMethods (inside : x ∈ (placeMethods methods (table, slots)).1) : x ∈ table ∨ ∃ m ∈ methods, m.id = x := by
  induction methods generalizing table slots with
  | nil => exact .inl inside
  | cons m rest ih =>
    rcases ih inside with listed | ⟨other,later,named⟩
    · rcases mem_placeMethod listed with old | rfl
      · exact .inl old
      · exact .inr ⟨m,.head _,rfl⟩
    · exact .inr ⟨other,.tail _ later,named⟩

theorem placeMethods_slot_of_notMem (outside : ∀ m ∈ methods, m.id ≠ x) :
    (placeMethods methods (table, slots)).2.get? x = slots.get? x := by
  induction methods generalizing table slots with
  | nil => rfl
  | cons m rest ih =>
    obtain ⟨other,outside⟩ := forall_mem_cons.mp outside
    rw [placeMethods_cons,ih outside,Table.get?_insert,if_neg (Ne.symm other)]

theorem placeMethods_slot_first (distinct : ((m :: rest).map FunctionDecl.id).Nodup) :
    (placeMethods (m :: rest) (table, slots)).2.get? m.id = some (placeMethod m table).1 := by
  have once := (nodup_cons.mp distinct).1
  rw [placeMethods_cons,placeMethods_slot_of_notMem fun other inside same => once (mem_map.mpr ⟨other,inside,same⟩)]
  simp

theorem placeMethods_slot (inside : ∃ m ∈ methods, m.id = x) :
    (placeMethods methods (table, slots)).2.get? x = (placeMethods methods (table, slots')).2.get? x := by
  induction methods generalizing table slots slots' with
  | nil => exact absurd inside (by simp)
  | cons first rest ih =>
    rw [placeMethods_cons,placeMethods_cons]
    by_cases later : ∃ m ∈ rest, m.id = x
    · exact ih later
    · have outside : ∀ m ∈ rest, m.id ≠ x := fun m inside same => later ⟨m,inside,same⟩
      obtain ⟨m,inside,rfl⟩ := inside
      obtain rfl := (mem_cons.mp inside).resolve_right fun inside => outside m inside rfl
      rw [placeMethods_slot_of_notMem outside,placeMethods_slot_of_notMem outside]
      simp

/-- Every entry stands at the slot that is noted for it. -/
def Standing (table : List FunctionId) (slots : Table FunctionId Nat) : Prop :=
  ∀ i x, table[i]? = some x → slots.get? x = some i

theorem Standing.placeMethod (standing : Standing table slots) (absent : m.id ∉ table) :
    Standing (placeMethod m table).2 (slots.insert m.id (placeMethod m table).1) := by
  intro i x there
  rw [getElem?_placeMethod] at there
  rw [Table.get?_insert]
  split at there
  · rename_i here
    cases there
    rw [if_pos rfl,here]
  · have other : x ≠ m.id := fun same => absent (same ▸ mem_of_getElem? there)
    rw [if_neg other]
    exact standing i x there

theorem Standing.slot_placeMethod (standing : Standing table slots) (there : table[i]? = some o) (overrides : m.overrides = some o) :
    (Layout.placeMethod m table).1 = i := by
  rcases placeMethod_cases m table with ⟨o',slot,overrides',there',placed⟩ | ⟨absent,-⟩
  · obtain rfl := Option.mem_unique overrides overrides'
    have same := (standing slot o there').symm.trans (standing i o there)
    rw [placed,Option.some.inj same]
  · exact absurd (mem_of_getElem? there) (absent o overrides)

theorem Standing.placeMethods (standing : Standing table slots) (fresh : Fresh methods table) :
    Standing (placeMethods methods (table, slots)).1 (placeMethods methods (table, slots)).2 := by
  induction methods generalizing table slots with
  | nil => exact standing
  | cons m rest ih => exact ih (standing.placeMethod (fresh.2 m (.head _))) fresh.tail

theorem placeMethods_keeps (there : table[i]? = some x) (untouched : ∀ m ∈ methods, m.overrides ≠ some x) :
    (placeMethods methods (table, slots)).1[i]? = some x := by
  induction methods generalizing table slots with
  | nil => exact there
  | cons m rest ih =>
    obtain ⟨own,untouched⟩ := forall_mem_cons.mp untouched
    rw [placeMethods_cons]
    refine ih ?_ untouched
    rw [getElem?_placeMethod,if_neg fun here => own (overrides_of_taken (here ▸ there)),there]

theorem placeMethods_refines (there : table[i]? = some x) (apart : ∀ m ∈ methods, ∀ m' ∈ methods, m'.overrides ≠ some m.id) :
    (placeMethods methods (table, slots)).1[i]? = some x ∨
      ∃ m ∈ methods, m.overrides = some x ∧ (placeMethods methods (table, slots)).1[i]? = some m.id := by
  induction methods generalizing table slots with
  | nil => exact .inl there
  | cons m rest ih =>
    have later : ∀ m ∈ rest, ∀ m' ∈ rest, m'.overrides ≠ some m.id := fun a inside b inside' =>
      apart a (.tail _ inside) b (.tail _ inside')
    rw [placeMethods_cons]
    by_cases here : i = (placeMethod m table).1
    · refine .inr ⟨m,.head _,overrides_of_taken (here ▸ there),?_⟩
      refine placeMethods_keeps (by rw [getElem?_placeMethod,if_pos here]) fun m' inside => ?_
      exact apart m (.head _) m' (.tail _ inside)
    · have still : (placeMethod m table).2[i]? = some x := by rw [getElem?_placeMethod,if_neg here,there]
      rcases ih still later with stays | ⟨taker,inside,overrides,taken⟩
      · exact .inl stays
      · exact .inr ⟨taker,.tail _ inside,overrides,taken⟩

theorem placeMethods_slot_lt (distinct : (methods.map FunctionDecl.id).Nodup) (inside : m ∈ methods) :
    ∃ i, (placeMethods methods (table, slots)).2.get? m.id = some i ∧ i < (placeMethods methods (table, slots)).1.length := by
  induction methods generalizing table slots with
  | nil => exact nomatch inside
  | cons first rest ih =>
    rcases mem_cons.mp inside with rfl | later
    · refine ⟨(placeMethod m table).1,placeMethods_slot_first distinct,?_⟩
      have there : (placeMethod m table).2[(placeMethod m table).1]? = some m.id := by rw [getElem?_placeMethod,if_pos rfl]
      exact Nat.lt_of_lt_of_le (List.getElem?_eq_some_iff.mp there).1 length_le_placeMethods
    · exact ih (nodup_cons.mp distinct).2 later

theorem placeMethods_holds (fresh : Fresh methods table) (inside : m ∈ methods)
    (untouched : ∀ m' ∈ methods, m'.overrides ≠ some m.id) : ∃ i, (placeMethods methods (table, slots)).2.get? m.id = some i ∧
      (placeMethods methods (table, slots)).1[i]? = some m.id := by
  induction methods generalizing table slots with
  | nil => exact nomatch inside
  | cons first rest ih =>
    have rested := (forall_mem_cons.mp untouched).2
    rcases mem_cons.mp inside with rfl | later
    · refine ⟨(placeMethod m table).1,placeMethods_slot_first fresh.1,?_⟩
      rw [placeMethods_cons]
      exact placeMethods_keeps (by rw [getElem?_placeMethod,if_pos rfl]) rested
    · exact ih fresh.tail later rested

theorem placeMethods_takes (standing : Standing table slots) (fresh : Fresh methods table) (inside : m ∈ methods)
    (there : table[i]? = some o) (overrides : m.overrides = some o) (alone : ∀ m' ∈ methods, m'.overrides = some o → m' = m) :
    (placeMethods methods (table, slots)).2.get? m.id = some i := by
  induction methods generalizing table slots with
  | nil => exact nomatch inside
  | cons first rest ih =>
    obtain ⟨own,alone⟩ := forall_mem_cons.mp alone
    by_cases last : first = m
    · subst last
      rw [placeMethods_slot_first fresh.1,standing.slot_placeMethod there overrides]
    · have later := (mem_cons.mp inside).resolve_left (Ne.symm last)
      rw [placeMethods_cons]
      refine ih (standing.placeMethod (fresh.2 first (.head _))) fresh.tail later ?_ alone
      rw [getElem?_placeMethod,if_neg fun here => last (own (overrides_of_taken (here ▸ there))),there]

theorem placeMethods_appends (distinct : (methods.map FunctionDecl.id).Nodup) (inside : m ∈ methods) (overrides : m.overrides = some o)
    (absent : o ∉ table) (other : ∀ m' ∈ methods, m'.id ≠ o) :
    ∃ i, (placeMethods methods (table, slots)).2.get? m.id = some i ∧ table.length ≤ i := by
  induction methods generalizing table slots with
  | nil => exact nomatch inside
  | cons first rest ih =>
    obtain ⟨own,other⟩ := forall_mem_cons.mp other
    rcases mem_cons.mp inside with rfl | later
    · refine ⟨(placeMethod m table).1,placeMethods_slot_first distinct,?_⟩
      rcases placeMethod_cases m table with ⟨o',slot,overrides',there',-⟩ | ⟨-,placed⟩
      · obtain rfl := Option.mem_unique overrides overrides'
        exact absurd (mem_of_getElem? there') absent
      · exact Nat.le_of_eq (by rw [placed])
    · have absent' : o ∉ (placeMethod first table).2 := fun listed =>
        (mem_placeMethod listed).elim absent fun same => own same.symm
      obtain ⟨i,slot,beyond⟩ := ih (nodup_cons.mp distinct).2 later absent' other
      exact ⟨i,slot,Nat.le_trans length_le_placeMethod beyond⟩

theorem notMem_placeMethods (standing : Standing table slots) (fresh : Fresh methods table) (inside : m ∈ methods)
    (overrides : m.overrides = some o) (other : ∀ m' ∈ methods, m'.id ≠ o) : o ∉ (placeMethods methods (table, slots)).1 := by
  induction methods generalizing table slots with
  | nil => exact nomatch inside
  | cons first rest ih =>
    obtain ⟨own,other'⟩ := forall_mem_cons.mp other
    rcases mem_cons.mp inside with rfl | later
    · have gone : o ∉ (placeMethod m table).2 := by
        intro listed
        obtain ⟨j,there⟩ := getElem?_of_mem listed
        rw [getElem?_placeMethod] at there
        split at there
        · exact own (Option.some.inj there)
        · rename_i elsewhere
          exact elsewhere (standing.slot_placeMethod there overrides).symm
      rw [placeMethods_cons]
      exact fun listed => (mem_placeMethods listed).elim gone fun ⟨m',inside',same⟩ => other' m' inside' same
    · exact ih (standing.placeMethod (fresh.2 first (.head _))) fresh.tail later other'

end Methods

end BlockLowering.Layout
