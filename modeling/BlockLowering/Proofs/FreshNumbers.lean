import BlockLowering.Module
import BlockLowering.Proofs.Tables
/-!
The numbers of a module stay fresh. Whatever is entered, under numbers of the module or of the caller, every number in use is
below the one that is given out next. A request fails exactly if it adds one to the last number of 32 bits.
-/
namespace BlockLowering.Module
open List Table

/-- The number that one is added to for a request, if any is. -/
def Request.counted? (m : Module) : Request → Option Nat
  | takeProcedureId => some m.nextProcedure
  | addProcedure p => some p.id.index
  | declareExtern name _ _ => if (m.findExtern? name).isSome then none else some m.nextProcedure
  | takeGlobalId | defineGlobal .. => some m.nextGlobal
  | addGlobal g => some g.id.index
  | addDatum .. => some m.nextDatum

/-- A request does not add one to the last number of 32 bits. -/
def Request.Fits (m : Module) (r : Request) : Prop := ∀ n, r.counted? m = some n → n + 1 < limit

/-- The module behind a list of requests, none of which fails. -/
def run? (m : Module) (requests : List Request) : Option Module := requests.foldlM (fun m r => (m.serve? r).map Prod.snd) m

def AllFit (m : Module) : List Request → Prop
  | [] => True
  | r :: rest => r.Fits m ∧ AllFit (m.serve r).2 rest

/-- The keys of a table are below a number. -/
def Below {κ α : Type} [DecidableEq κ] (index : κ → Nat) (t : Table κ α) (next : Nat) : Prop := ∀ k v, t.get? k = some v → index k < next

/-- The numbers in use are below the next ones, and external functions have names of their own. -/
structure Fresh (m : Module) : Prop where
  procedures : Below ProcId.index m.procedures m.nextProcedure
  externs : Below ProcId.index m.externs m.nextProcedure
  globals : Below GlobalId.index m.globals m.nextGlobal
  data : Below DataId.index m.data m.nextDatum
  names : (m.externs.entries.map (·.2.name)).Nodup

section
variable {κ α : Type} [DecidableEq κ] {index : κ → Nat} {t : Table κ α} {n n' : Nat} {k : κ} {v : α}

theorem Below.mono (below : Below index t n) (le : n ≤ n') : Below index t n' := fun k v there => Nat.lt_of_lt_of_le (below k v there) le

theorem Below.insert (below : Below index t n) (le : n ≤ n') (new : index k < n') : Below index (t.insert k v) n' :=
  fun k v there => of_insert there new fun old => below.mono le k v old

theorem Below.get?_eq_none (below : Below index t n) (next : index k = n) : t.get? k = none :=
  Option.eq_none_iff_forall_ne_some.mpr fun v there => absurd (below k v there) (by omega)

end

variable {m m' : Module} {r : Request} {requests : List Request}

theorem serve_declareExtern (m : Module) (name : String) (header : Header) (canThrow : Bool) :
    (∃ id, m.findExtern? name = some id ∧ (m.serve (.declareExtern name header canThrow)).2 = m) ∨
    m.findExtern? name = none ∧ (m.serve (.declareExtern name header canThrow)).2 = { m with
      externs := m.externs.insert ⟨m.nextProcedure⟩ ⟨⟨m.nextProcedure⟩,name,header,canThrow⟩, nextProcedure := m.nextProcedure + 1 } := by
  cases found : m.findExtern? name with
  | some id => exact .inl ⟨id,rfl,by simp [serve,Module.declareExtern,found]⟩
  | none => exact .inr ⟨rfl,by simp [serve,Module.declareExtern,found,takeProcedureId]⟩

theorem fresh_new (name : String) : (new name).Fresh := ⟨nofun,nofun,nofun,nofun,nodup_nil⟩

/-- A request keeps the numbers fresh, also one that fails. -/
theorem Fresh.serve (fresh : m.Fresh) (r : Request) : (m.serve r).2.Fresh := by
  obtain ⟨procedures,externs,globals,data,names⟩ := fresh
  have step : ∀ {n}, n ≤ n + 1 := Nat.le_succ _
  have most : ∀ {n k}, n ≤ max n k := Nat.le_max_left ..
  cases r with
  | takeProcedureId => exact ⟨procedures.mono step,externs.mono step,globals,data,names⟩
  | addProcedure p => exact ⟨procedures.insert most (Nat.le_max_right ..),externs.mono most,globals,data,names⟩
  | declareExtern name header canThrow =>
    rcases serve_declareExtern m name header canThrow with ⟨id,-,same⟩ | ⟨missing,after⟩
    · rw [same]
      exact ⟨procedures,externs,globals,data,names⟩
    · rw [after]
      refine ⟨procedures.mono step,externs.insert step (Nat.lt_succ_self _),globals,data,?_⟩
      have new : ⟨m.nextProcedure⟩ ∉ m.externs.keys := fun inside =>
        (mem_keys_iff.mp inside).elim fun e there => Nat.lt_irrefl _ (externs _ e there)
      show ((put _ _ m.externs.entries).map _).Nodup
      rw [put_of_not_mem new,map_append,nodup_append]
      refine ⟨names,by simp,fun other inside _ own => ?_⟩
      obtain ⟨e,listed,rfl⟩ := mem_map.mp inside
      rw [mem_singleton.mp own]
      simpa using find?_eq_none.mp (Option.map_eq_none_iff.mp missing) e.2 (mem_map_of_mem listed)
  | takeGlobalId => exact ⟨procedures,externs,globals.mono step,data,names⟩
  | addGlobal g => exact ⟨procedures,externs,globals.insert most (Nat.le_max_right ..),data,names⟩
  | defineGlobal name type initializer isMutable linkage =>
    exact ⟨procedures,externs,globals.insert (Nat.le_trans step most) (Nat.le_max_right ..),data,names⟩
  | addDatum name type contents => exact ⟨procedures,externs,globals,data.insert step (Nat.lt_succ_self _),names⟩

theorem fits_serve (fits : m.fits = true) : (m.serve r).2.fits = true ↔ r.Fits m := by
  simp only [Module.fits,Bool.and_eq_true,decide_eq_true_eq] at fits ⊢
  cases r with
  | declareExtern name header canThrow =>
    rw [Request.Fits,Request.counted?]
    rcases serve_declareExtern m name header canThrow with ⟨id,found,same⟩ | ⟨missing,after⟩
    · rw [same,found]
      simpa using fits
    · rw [after,missing]
      simp [fits]
  | _ =>
    simp [Request.Fits,Request.counted?,Module.serve,takeProcedureId,addProcedure,takeGlobalId,addGlobal,defineGlobal,addDatum,Nat.max_lt,fits]

theorem serve?_cases (fits : m.fits = true) (r : Request) :
    r.Fits m ∧ m.serve? r = some (m.serve r) ∧ (m.serve r).2.fits = true ∨ ¬ r.Fits m ∧ m.serve? r = none := by
  by_cases fit : r.Fits m
  · have kept := (fits_serve fits).mpr fit
    exact .inl ⟨fit,if_pos kept,kept⟩
  · exact .inr ⟨fit,if_neg fun kept => fit ((fits_serve fits).mp kept)⟩

/-- A run fails exactly if a request does. Otherwise numbers stay fresh and have 32 bits. -/
theorem Fresh.run? (fresh : m.Fresh) (fits : m.fits = true) (requests : List Request) :
    ¬ m.AllFit requests ∧ m.run? requests = none ∨
      m.AllFit requests ∧ ∃ m', m.run? requests = some m' ∧ m'.Fresh ∧ m'.fits = true := by
  induction requests generalizing m with
  | nil => exact .inr ⟨trivial,m,rfl,fresh,fits⟩
  | cons r rest ih =>
    rcases serve?_cases fits r with ⟨fit,served,kept⟩ | ⟨unfit,failed⟩
    · have next : m.run? (r :: rest) = (m.serve r).2.run? rest := by simp [Module.run?,served]
      rw [next]
      exact (ih (fresh.serve r) kept).imp (And.imp_left fun less all => less all.2) (And.imp_left (.intro fit))
    · exact .inl ⟨fun all => unfit all.1,by simp [Module.run?,failed]⟩

/-- A list of requests fails exactly if one of them adds one to the last number of 32 bits. If none does, the numbers in use are below
    the next ones, which have 32 bits and which no table knows, and external functions have distinct names. -/
theorem run_fresh (name : String) (requests : List Request) :
    ((new name).run? requests = none ↔ ¬ (new name).AllFit requests) ∧
    ∀ m, (new name).run? requests = some m → m.Fresh ∧ m.fits = true ∧ (m.externs.values.map ExternProcedure.name).Nodup ∧
      m.procedures.get? m.takeProcedureId.1 = none ∧ m.externs.get? m.takeProcedureId.1 = none ∧
      m.globals.get? m.takeGlobalId.1 = none ∧ m.data.get? ⟨m.nextDatum⟩ = none ∧ ∀ r : Request, m.serve? r = none ↔ ¬ r.Fits m := by
  have start : (new name).fits = true := rfl
  rcases (fresh_new name).run? start requests with ⟨unfit,failed⟩ | ⟨all,m',ran,fresh,fits⟩
  · exact ⟨iff_of_true failed unfit,fun m ran => by simp [failed] at ran⟩
  · refine ⟨iff_of_false (by simp [ran]) (not_not_intro all),fun m ran' => ?_⟩
    obtain rfl := Option.mem_unique ran ran'
    refine ⟨fresh,fits,by rw [values,map_map]; exact fresh.names,fresh.procedures.get?_eq_none rfl,fresh.externs.get?_eq_none rfl,
      fresh.globals.get?_eq_none rfl,fresh.data.get?_eq_none rfl,fun r => ?_⟩
    rcases serve?_cases fits r with ⟨fit,served,-⟩ | ⟨unfit,failed⟩
    · simp [served,fit]
    · exact iff_of_true failed unfit

/-- Numbers of the caller and of the module are taken up to the last one but one. -/
theorem run_fresh_own_numbers : ∃ m, (new "m").run? [.addProcedure (.new ⟨4294967293⟩ "f" ⟨[],.void⟩),
    .declareExtern "g" ⟨[],.void⟩ true] = some m ∧ m.Fresh :=
  ⟨_,rfl,((run_fresh "m" [.addProcedure (.new ⟨4294967293⟩ "f" ⟨[],.void⟩),.declareExtern "g" ⟨[],.void⟩ true]).2 _ rfl).1⟩

/-- A function cannot be entered under the last number. -/
theorem last_number_fails : (new "m").run? [.addProcedure (.new ⟨4294967295⟩ "f" ⟨[],.void⟩)] = none := by decide

end BlockLowering.Module
