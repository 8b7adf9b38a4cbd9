import BlockLowering.Table
/-!
What a table answers after each of its operations, and how its entries relate to its answers.
-/
namespace BlockLowering.Table
open List
variable {κ α β : Type} [DecidableEq κ] {es : List (κ × α)} {w : α} {motive : κ → α → Prop} {f : α → α}
variable {x k : κ} {v : α} {t t' : Table κ α}

@[simp] theorem get?_empty : (∅ : Table κ α).get? x = none := rfl

private theorem lookup_head {e : κ × α} {rest : List (κ × α)} : (e :: rest).lookup x = if x = e.1 then some e.2 else rest.lookup x := by
  rw [lookup_cons]
  by_cases here : x = e.1
  · simp [here]
  · simp [here,beq_eq_false_iff_ne.mpr here]

private theorem lookup_put : (put k v es).lookup x = if x = k then some v else es.lookup x := by
  induction es with
  | nil => simp [put,lookup_head]
  | cons e rest ih =>
    unfold put
    by_cases old : e.1 = k
    · by_cases same : x = k <;> simp [lookup_head,old,same]
    · by_cases same : x = k
      · subst same
        have other : x ≠ e.1 := fun h => old h.symm
        simp [lookup_head,old,ih,other]
      · simp [lookup_head,old,ih,same]

@[simp] theorem get?_insert : (t.insert k v).get? x = if x = k then some v else t.get? x := lookup_put

@[elab_as_elim] theorem of_others
    (there : t'.get? x = some w) (others : ∀ {x}, x ≠ k → t'.get? x = t.get? x) (found : t'.get? k = some v)
    (own : motive k v) (rest : t.get? x = some w → motive x w) : motive x w := by
  by_cases here : x = k
  · subst here
    exact Option.mem_unique found there ▸ own
  · exact rest ((others here).symm.trans there)

@[elab_as_elim] theorem of_insert
    (there : (t.insert k v).get? x = some w) (own : motive k v) (rest : t.get? x = some w → motive x w) : motive x w :=
  of_others there (fun other => get?_insert.trans (if_neg other)) (get?_insert.trans (if_pos rfl)) own rest

theorem insert_cases (there : (t.insert k v).get? x = some w) : x = k ∧ w = v ∨ t.get? x = some w :=
  of_insert there (.inl ⟨rfl,rfl⟩) .inr

theorem get?_insert_self : (t.insert k v).get? k = some v := get?_insert.trans (if_pos rfl)

theorem get?_insert_of_ne (other : x ≠ k) : (t.insert k v).get? x = t.get? x := get?_insert.trans (if_neg other)

@[simp] theorem get?_modify : (t.modify k f).get? x = if x = k then (t.get? x).map f else t.get? x := by
  show (t.entries.map _).lookup x = if x = k then (t.entries.lookup x).map f else t.entries.lookup x
  induction t.entries with
  | nil => simp
  | cons e rest ih =>
    by_cases here : x = e.1
    · by_cases same : e.1 = k <;> simp [lookup_head,here,same]
    · simp [lookup_head,here,ih]

@[simp] theorem get?_filterKeys {keep : κ → Bool} : (t.filterKeys keep).get? x = if keep x then t.get? x else none := by
  show (t.entries.filter _).lookup x = if keep x then t.entries.lookup x else none
  induction t.entries with
  | nil => simp
  | cons e rest ih =>
    by_cases here : x = e.1
    · subst here
      by_cases kept : keep e.1
      · simp [lookup_head,kept]
      · simpa [lookup_head,kept] using ih
    · by_cases kept : keep e.1 <;> simpa [lookup_head,kept,here] using ih

@[simp] theorem get?_mapValues {f : α → β} : (t.mapValues f).get? x = (t.get? x).map f := by
  show (t.entries.map _).lookup x = (t.entries.lookup x).map f
  induction t.entries with
  | nil => simp
  | cons e rest ih => by_cases here : x = e.1 <;> simp [lookup_head,here,ih]

theorem mem_entries_iff : (x, v) ∈ t.entries ↔ t.get? x = some v := by
  obtain ⟨entries,distinct⟩ := t
  show (x, v) ∈ entries ↔ entries.lookup x = some v
  induction entries with
  | nil => simp
  | cons e rest ih =>
    have parts := nodup_cons.mp distinct
    rw [lookup_head,mem_cons,ih parts.2]
    by_cases here : x = e.1
    · subst here
      have absent : rest.lookup e.1 ≠ some v := fun found =>
        parts.1 (mem_map.mpr ⟨_,(ih parts.2).mpr found,rfl⟩)
      simp [absent,Prod.ext_iff,eq_comm]
    · simp [here,Prod.ext_iff]

theorem mem_keys_iff : x ∈ t.keys ↔ ∃ v, t.get? x = some v := by
  simp only [keys,mem_map,Prod.exists,exists_and_right,exists_eq_right,mem_entries_iff]

theorem mem_values_iff : v ∈ t.values ↔ ∃ x, t.get? x = some v := by
  simp only [values,mem_map,Prod.exists,exists_eq_right,mem_entries_iff]

omit [DecidableEq κ] in
theorem total_succ (t : Table κ α) (measure : α → Nat) : (t.total fun v => measure v + 1) = t.total measure + t.size := by
  unfold total values size
  induction t.entries with
  | nil => rfl
  | cons e rest ih =>
    simp only [map_cons,foldr_cons,length_cons,ih]
    omega

theorem contains_iff : t.contains x = true ↔ ∃ v, t.get? x = some v := by
  rw [contains,Option.isSome_iff_exists]

theorem contains_insert_self : (t.insert k v).contains k = true := contains_iff.mpr ⟨v,get?_insert_self⟩

theorem contains_insert (there : t.contains x = true) : (t.insert k v).contains x = true := by
  rw [contains,get?_insert]
  split
  · rfl
  · exact there

/-! ### Keys -/

omit [DecidableEq κ] in
theorem keys_mapValues (t : Table κ α) (f : α → β) : (t.mapValues f).keys = t.keys := by
  simp [keys,mapValues]

theorem keys_modify (t : Table κ α) (k : κ) (f : α → α) : (t.modify k f).keys = t.keys := by
  simp [keys,modify]

private theorem keys_put {v' : α} {es' : List (κ × α)} (same : es.map Prod.fst = es'.map Prod.fst) :
    (put k v es).map Prod.fst = (put k v' es').map Prod.fst := by
  induction es generalizing es' with
  | nil =>
    obtain rfl := map_eq_nil_iff.mp same.symm
    rfl
  | cons e rest ih =>
    obtain ⟨e',rest',rfl,head,tail⟩ := map_eq_cons_iff.mp same.symm
    unfold put
    by_cases old : e.1 = k
    · rw [if_pos old,if_pos (head.trans old),map_cons,map_cons,tail]
    · rw [if_neg old,if_neg fun here => old (head.symm.trans here),map_cons,map_cons,head,ih tail.symm]

theorem keys_insert (same : t.keys = t'.keys) (k : κ) (v v' : α) : (t.insert k v).keys = (t'.insert k v').keys :=
  keys_put same

private theorem entries_map_some (t : Table κ α) : t.entries.map some = t.keys.map fun k => (t.get? k).map fun v => (k, v) := by
  rw [keys,map_map]
  refine map_congr_left fun e inside => ?_
  show some e = (t.get? e.1).map fun v => (e.1, v)
  rw [mem_entries_iff.mp inside,Option.map_some]

theorem ext_keys (keys : t.keys = t'.keys) (answers : ∀ x, t.get? x = t'.get? x) : t = t' := by
  have entries : t.entries.map some = t'.entries.map some := by
    rw [entries_map_some t,entries_map_some t',keys]
    simp only [answers]
  exact Table.mk.injEq .. ▸ (map_inj_right fun _ _ => Option.some.inj).mp entries

theorem modify_self (t : Table κ α) (k : κ) (same : ∀ v, f v = v) : t.modify k f = t := by
  refine ext_keys (keys_modify t k f) fun x => ?_
  rw [get?_modify]
  split
  · cases t.get? x with
    | none => rfl
    | some v => exact congrArg some (same v)
  · rfl

theorem put_of_not_mem (new : k ∉ es.map Prod.fst) : put k v es = es ++ [(k, v)] := by
  induction es with
  | nil => rfl
  | cons e rest ih =>
    simp only [map_cons,mem_cons,not_or] at new
    rw [put,if_neg (Ne.symm new.1),ih new.2]
    rfl

theorem entries_foldl_insert (distinct : ((t.entries ++ es).map Prod.fst).Nodup) :
    (es.foldl (fun t e => t.insert e.1 e.2) t).entries = t.entries ++ es := by
  induction es generalizing t with
  | nil => simp
  | cons e rest ih =>
    have new : e.1 ∉ t.entries.map Prod.fst := by
      intro inside
      rw [map_append,nodup_append] at distinct
      exact distinct.2.2 _ inside _ (.head _) rfl
    have entered : (t.insert e.1 e.2).entries = t.entries ++ [e] := put_of_not_mem new
    rw [foldl_cons,ih (by simpa [entered] using distinct),entered,append_assoc]
    rfl

theorem entries_ofList (distinct : (es.map Prod.fst).Nodup) : (ofList es).entries = es :=
  entries_foldl_insert distinct

end BlockLowering.Table
