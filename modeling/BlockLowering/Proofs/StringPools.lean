import BlockLowering.Proofs.Tables
import BlockLowering.StaticData
import Mathlib.Logic.Function.Basic
/-!
Strings that several modules share. A pool keeps the number that a string got in the module where it was first placed, its
home, and gives it out for the other modules too. At home the number names the string, whatever is placed later; in another
module it names what happens to have that number there, if anything does.
-/
namespace BlockLowering
open List Function BlockLowering.Module StringPool Option Table

/-- Static data that one of several modules is asked to hold. -/
inductive DataRequest where
  | string (target : Nat) (value : String)
  | array (target : Nat) (elementType : NativeType) (elements : List Literal)
  | aggregate (target : Nat) (parts : List Literal)

/-- The module that is first asked to hold a string. -/
def DataRequest.home? (value : String) (requests : List DataRequest) : Option Nat :=
  requests.findSome? fun
    | .string target v => if v = value then some target else none
    | _ => none

/-- The string that a number names. -/
def Module.string? (m : Module) (id : DataId) : Option String :=
  match (m.data.get? id).map StaticDatum.contents with
  | some (.string value) => some value
  | _ => none

theorem Module.exists_of_string? {m : Module} {id : DataId} {value : String} (named : m.string? id = some value) :
    ∃ datum, m.data.get? id = some datum := by
  cases found : m.data.get? id with
  | none => simp [string?,found] at named
  | some datum => exact ⟨datum,rfl⟩

/-- A pool of strings and the modules that it serves. -/
structure DataSession where
  pool : StringPool
  modules : Nat → Module

namespace DataSession
open DataRequest

def serve (d : DataSession) : DataRequest → DataId × DataSession
  | .string target value =>
    let (id, pool, m) := d.pool.intern (d.modules target) value
    (id, ⟨pool,update d.modules target m⟩)
  | .array target elementType elements =>
    let (id, m) := (d.modules target).placeArray elementType elements
    (id, { d with modules := update d.modules target m })
  | .aggregate target parts =>
    let (id, m) := (d.modules target).placeAggregate parts
    (id, { d with modules := update d.modules target m })

def run (d : DataSession) (requests : List DataRequest) : DataSession := requests.foldl (fun d request => (d.serve request).2) d

/-- The data of every module have numbers below the next one. -/
def Numbered (modules : Nat → Module) : Prop := ∀ {t id datum}, (modules t).data.get? id = some datum → id.index < (modules t).nextDatum

/-- Every string with a home has a number, which names it there. -/
structure Serves (home : String → Option Nat) (d : DataSession) : Prop where
  numbered : Numbered d.modules
  known : ∀ {value id}, d.pool.places.get? value = some id → ∃ t, home value = some t ∧ (d.modules t).string? id = some value
  unknown : ∀ {value}, d.pool.places.get? value = none → home value = none

variable {d : DataSession} {home : String → Option Nat} {value : String} {id : DataId} {t : Nat}

/-- A request finds its string in the pool, or a module gets a datum with the next number. -/
theorem serve_cases (d : DataSession) (request : DataRequest) :
    (∃ t value id, request = .string t value ∧ d.pool.places.get? value = some id ∧ d.serve request = (id, d)) ∨
    ∃ t name contents pool, d.serve request = (⟨(d.modules t).nextDatum⟩, ⟨pool,update d.modules t ((d.modules t).addDatum name .ptr contents).2⟩) ∧
      ((∃ value, request = .string t value ∧ d.pool.places.get? value = none ∧ contents = .string value ∧
          pool = ⟨d.pool.places.insert value ⟨(d.modules t).nextDatum⟩⟩) ∨ pool = d.pool ∧ ∀ value, home? value [request] = none) := by
  cases request with
  | string t value =>
    cases found : d.pool.places.get? value with
    | some id => exact .inl ⟨t,value,id,rfl,found,by simp [serve,intern,found]⟩
    | none => exact .inr ⟨t,_,_,_,by simp only [serve,intern,found]; rfl,.inl ⟨value,rfl,found,rfl,rfl⟩⟩
  | array t _ _ | aggregate t _ => exact .inr ⟨t,_,_,_,rfl,.inr ⟨rfl,fun _ => rfl⟩⟩

theorem get?_serve (d : DataSession) (t : Nat) (value : String) :
    (d.serve (.string t value)).2.pool.places.get? value = some (d.serve (.string t value)).1 := by
  cases found : d.pool.places.get? value <;> simp [serve,intern,found]

section
variable (numbered : Numbered d.modules) {name : String} {contents : StaticContents}
include numbered

theorem numbered_addDatum : Numbered (update d.modules t ((d.modules t).addDatum name .ptr contents).2) := by
  intro x id datum found
  by_cases here : x = t
  · subst here
    rw [update_self] at found ⊢
    exact of_insert found (Nat.lt_succ_self _) fun old => Nat.lt_succ_of_lt (numbered old)
  · rw [update_of_ne here] at found ⊢
    exact numbered found

theorem string?_addDatum {x : Nat} (named : (d.modules x).string? id = some value) :
    ((update d.modules t ((d.modules t).addDatum name .ptr contents).2) x).string? id = some value := by
  by_cases here : x = t
  · subst here
    obtain ⟨datum,found⟩ := exists_of_string? named
    have other : id ≠ ⟨(d.modules x).nextDatum⟩ := fun new => Nat.lt_irrefl _ (new ▸ numbered found)
    simpa [string?,addDatum,other] using named
  · rwa [update_of_ne here]

end

/-- A request keeps what the pool knows, and a string that is new to the pool is at home where it is asked for. -/
theorem Serves.serve (serves : d.Serves home) (request : DataRequest) :
    (d.serve request).2.Serves (fun value => (home value).or (home? value [request])) ∧
      ∀ {value id}, d.pool.places.get? value = some id → (d.serve request).2.pool.places.get? value = some id := by
  rcases serve_cases d request with ⟨t,value,id,rfl,found,served⟩ | ⟨t,name,contents,pool,served,kind⟩
  · rw [served]
    refine ⟨⟨serves.numbered,fun found => ?_,fun {other} absent => ?_⟩,fun there => there⟩
    · obtain ⟨t,first,named⟩ := serves.known found
      exact ⟨t,by rw [first,some_or],named⟩
    · have apart : value ≠ other := fun same => by simp [← same,found] at absent
      simp [serves.unknown absent,home?,apart]
  · have kept : ∀ {value id}, d.pool.places.get? value = some id → ∃ x, (home value).or (home? value [request]) = some x ∧
        (update d.modules t ((d.modules t).addDatum name .ptr contents).2 x).string? id = some value := fun found => by
      obtain ⟨x,first,named⟩ := serves.known found
      exact ⟨x,by rw [first,some_or],string?_addDatum serves.numbered named⟩
    rw [served]
    rcases kind with ⟨value,rfl,absent,rfl,rfl⟩ | ⟨rfl,none⟩
    · refine ⟨⟨numbered_addDatum serves.numbered,fun found => ?_,fun {other} missing => ?_⟩,fun {other id} there => ?_⟩
      · refine of_insert found ⟨t,?_,?_⟩ kept
        · simp [serves.unknown absent,home?]
        · simp [string?,addDatum]
      · have apart : other ≠ value := fun same => by simp [same] at missing
        rw [get?_insert_of_ne apart] at missing
        simp [serves.unknown missing,home?,apart.symm]
      · exact (get?_insert_of_ne fun same => by simp [← same,there] at absent).trans there
    · exact ⟨⟨numbered_addDatum serves.numbered,kept,fun absent => by rw [serves.unknown absent,none]; rfl⟩,fun there => there⟩

theorem Serves.run (serves : d.Serves home) (requests : List DataRequest) :
    (d.run requests).Serves (fun value => (home value).or (home? value requests)) ∧
      ∀ {value id}, d.pool.places.get? value = some id → (d.run requests).pool.places.get? value = some id := by
  induction requests generalizing d home with
  | nil =>
    simp only [home?,findSome?_nil,Option.or_none]
    exact ⟨serves,fun there => there⟩
  | cons request rest ih =>
    obtain ⟨first,kept⟩ := serves.serve request
    obtain ⟨after,kept'⟩ := ih first
    refine ⟨?_,fun there => kept' (kept there)⟩
    have joined : ∀ value, home? value ([request] ++ rest) = (home? value [request]).or (home? value rest) := fun _ => findSome?_append
    change Serves (fun value => (home value).or (home? value ([request] ++ rest))) _
    simp only [joined,← Option.or_assoc]
    exact after

/-- The number of a string stays the same and names it at home, whatever is asked for later, and no other string with the same home has
    that number. So all is well as long as every string is asked for in one module only. -/
theorem run_names_strings (modules : Nat → Module) (numbered : Numbered modules) (earlier later : List DataRequest) (t : Nat) (value : String) :
    let placed := (run ⟨.empty,modules⟩ earlier).serve (.string t value)
    let after := placed.2.run later
    let home := (home? value earlier).getD t
    (after.modules home).string? placed.1 = some value ∧ (∀ t', (after.serve (.string t' value)).1 = placed.1) ∧
      ∀ t' other, other ≠ value → (home? other (earlier ++ .string t value :: later)).getD t' = home →
        (after.serve (.string t' other)).1 ≠ placed.1 := by
  intro placed after home
  have start : (⟨.empty,modules⟩ : DataSession).Serves fun _ => none := ⟨fun found => numbered found,nofun,fun _ => rfl⟩
  obtain ⟨after',kept⟩ := (start.run earlier).1.serve (.string t value) |>.1.run later
  have served : after.pool.places.get? value = some placed.1 := kept (get?_serve _ t value)
  have whole : ∀ other, (((none : Option Nat).or (home? other earlier)).or (home? other [.string t value])).or (home? other later) =
      home? other (earlier ++ .string t value :: later) := fun other => by
    rw [Option.none_or,Option.or_assoc,home?,home?,home?,← findSome?_append,← findSome?_append]
    rfl
  have at_home : home? value (earlier ++ .string t value :: later) = some home := by
    have asked : home? value [.string t value] = some t := by simp [home?]
    rw [← whole]
    cases first : home? value earlier <;> simp [home,first,asked]
  obtain ⟨x,first,named⟩ := after'.known served
  obtain rfl : x = home := Option.some.inj ((first.symm.trans (whole value)).trans at_home)
  refine ⟨named,fun t' => by simp [serve,StringPool.intern,served],fun t' other apart same equal => ?_⟩
  cases found : after.pool.places.get? other with
  | some id =>
    obtain ⟨y,first',named'⟩ := after'.known found
    rw [whole] at first'
    rw [first',Option.getD_some] at same
    have answer : (after.serve (.string t' other)).1 = id := by simp [serve,StringPool.intern,found]
    rw [same,← answer,equal,named] at named'
    exact apart (Option.some.inj named').symm
  | none =>
    have absent := after'.unknown found
    rw [whole] at absent
    rw [absent,Option.getD_none] at same
    have answer : (after.serve (.string t' other)).1 = ⟨(after.modules t').nextDatum⟩ := by simp [serve,StringPool.intern,found,Module.addDatum]
    obtain ⟨datum,there⟩ := Module.exists_of_string? named
    have below := after'.numbered there
    rw [← equal,answer,same] at below
    exact Nat.lt_irrefl _ below

theorem run_names_strings_one_module :
    ((((run ⟨.empty,fun _ => .new "m"⟩ [.string 0 "a"]).serve (.string 0 "b")).2.run [.array 0 .i32 []]).modules 0).string? ⟨1⟩ = some "b" :=
  (run_names_strings (fun _ => .new "m") nofun [.string 0 "a"] [.array 0 .i32 []] 0 "b").1

/-- A second module gets the number that a string has in the first one, where it names nothing. -/
theorem shared_string_unnamed : let d := run ⟨.empty,fun _ => .new "m"⟩ [.string 0 "a"]
    (d.serve (.string 1 "a")).1 = ⟨0⟩ ∧ ((d.serve (.string 1 "a")).2.modules 1).string? ⟨0⟩ = none := by
  decide

end DataSession

end BlockLowering
