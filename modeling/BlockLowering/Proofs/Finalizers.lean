import BlockLowering.Proofs.Footing
import BlockLowering.Proofs.Scoping
/-!
Exits through finalizers. An exit leaves a path behind, from block to block: through one cleanup of each
finalizing scope around it, innermost first, up to the scope that the exit is for. A scope remembers its
cleanups. Each of them is filled once, with the finalizer as it is lowered outside the scope, and the exit goes on
from there unless the finalizer does not complete.
-/
namespace BlockLowering
open Lower List Builder Array Build Chain Option Runs
variable {id : Nat} {kind : ScopeKind} {t : Terminator} {dest r register : Register} {change : BlockId → Block → Block}

/-- The first scope on the way of an exit that has to be finalized. -/
def Chain.finalizing? (exit : Exit) : Chain → Option Nat
  | [] => none
  | ⟨id,.finalizing _⟩ :: _ => some id
  | ⟨_,kind⟩ :: outer => if kind.claims exit then none else finalizing? exit outer

/-- A pass that lowers every expression with some bound on the depth. -/
def Lower.Bounded (r : Recurse) : Prop := ∀ chain e, ∃ depth, r chain e = lowerWithin depth chain e

namespace State
variable (s : State)

def cleanups (id : Nat) (exit : Exit) : Option Continuation := ((s.scopes[id]?).getD .empty).cleanups.get? exit

def EndsWith (b : BlockId) (t : Terminator) : Prop :=
  ∃ p block, s.builder.procedure? = some p ∧ p.graph.block? b = some block ∧ block.terminator = some t

def Blank (b : BlockId) : Prop :=
  ∃ p block, s.builder.procedure? = some p ∧ p.graph.block? b = some block ∧ block.code = [] ∧ block.terminator = none

/-- At the end of a block a register holds a value: the register of the value itself, or one that the unit
    object has been loaded to. -/
def Bears (b : BlockId) (v : Value) (r : Register) : Prop :=
  v.form = .register r ∨ v.form = .unit ∧ ∃ p block global, s.builder.procedure? = some p ∧ p.graph.block? b = some block ∧
    .const r (.global global) ∈ block.code ∧ s.builder.output.globalName? global = some unitSymbol

/-- A merge takes a register on the edge from a block. -/
def Merges (target : BlockId) (dest : Register) (b : BlockId) (r : Register) : Prop :=
  ∃ p block phi, s.builder.procedure? = some p ∧ p.graph.block? target = some block ∧ phi ∈ block.phis ∧ phi.dest = dest ∧
    (b, r) ∈ phi.incoming

/-- A block goes on at a continuation, and brings a value to it if the continuation merges values. -/
structure Joins (b : BlockId) (k : Continuation) (v : Value) : Prop where
  ends : s.EndsWith b (.branch k.block)
  brings : ∀ {dest}, k.phi = some dest → ∃ r, s.Bears b v r ∧ s.Merges k.block dest b r

/-- A block does what an exit is at the scope that it is for. -/
def Performs (b : BlockId) (v : Value) : ScopeKind → Exit → Prop
  | .function _ returnsVoid _, .returning _ =>
    if returnsVoid then s.EndsWith b (.ret none) else ∃ r, s.Bears b v r ∧ s.EndsWith b (.ret (some r))
  | .inlined _ target, .returning _ => s.Joins b target v
  | .loop _ target _, .breaking _ => s.Joins b target .unit
  | .loop _ _ check, .continuing _ => s.EndsWith b (.branch check)
  | _, _ => False

variable {s}

/-- A later state of one run in a function. -/
structure Ensues (s s' : State) : Prop where
  grows : ∀ {p}, s.builder.procedure? = some p → ∃ p', s'.builder.procedure? = some p' ∧ p.Grows p'
  names : s.builder.output.Keeps s'.builder.output

/-- No cleanup of the scopes around a point is forgotten or replaced. -/
def Remembers (chain : Chain) (s s' : State) : Prop :=
  ∀ scope ∈ chain, ∀ {exit k}, s.cleanups scope.id exit = some k → s'.cleanups scope.id exit = some k

end State

/-- A cleanup is filled by one lowering of a finalizer outside its scope; where the finalizer completes, the
    exit is taken once more from there, with the value that the cleanup was given. -/
inductive Cleans (env : Environment) (s : State) (outer : Chain) (finalizer : Expr) (exit : Exit)
    (onwards : Value → BlockId → Prop) (k : Continuation) : Prop
  | stops {r : Recurse} {first last : State} (bounded : Bounded r) (begins : first.builder.cursor = some k.block)
    (blank : first.Blank k.block) (run : Runs (eval r outer finalizer) env first none last) (ended : last.Closed)
    (before : last.Ensues s)
  | goesOn {r : Recurse} {first last left : State} {value : Value} {b : BlockId} (bounded : Bounded r)
    (begins : first.builder.cursor = some k.block) (blank : first.Blank k.block)
    (run : Runs (eval r outer finalizer) env first (some value) last) (ends : last.builder.cursor = some b)
    (leaves : Runs (leave r outer exit k.value) env last () left) (before : left.Ensues s) (path : onwards k.value b)

/-- The path that an exit with a value has left behind in a block. -/
def Departs (env : Environment) (s : State) (exit : Exit) : Chain → Value → BlockId → Prop
  | [], _, _ => False
  | ⟨id,.finalizing finalizer⟩ :: outer, v, b => ∃ k, s.cleanups id exit = some k ∧ s.Joins b k v ∧
    Cleans env s outer finalizer exit (Departs env s exit outer) k
  | ⟨_,kind⟩ :: outer, v, b => if kind.claims exit then s.Performs b v kind exit else Departs env s exit outer v b

/-- An exit is taken from one state to another. -/
def State.Leaves (env : Environment) (chain : Chain) (exit : Exit) (v : Value) (s s' : State) : Prop :=
  ∃ b, s.builder.cursor = some b ∧ Departs env s' exit chain v b

theorem departs_claimed
    (claimed : kind.claims exit = true) : Departs env s exit (⟨id,kind⟩ :: outer) v b ↔ s.Performs b v kind exit := by
  cases kind with
  | finalizing finalizer => cases claimed
  | _ => exact iff_of_eq (if_pos claimed)

theorem departs_passed
    (passed : kind.claims exit = false) (plain : ∀ finalizer, kind ≠ .finalizing finalizer) :
    Departs env s exit (⟨id,kind⟩ :: outer) v b ↔ Departs env s exit outer v b := by
  cases kind with
  | finalizing finalizer => exact absurd rfl (plain finalizer)
  | _ => exact iff_of_eq (if_neg (by simp [passed]))

/-- Every cleanup of the scopes around a point has been filled. -/
def State.Tended (env : Environment) (s : State) : Chain → Prop
  | [] => True
  | scope :: outer => (∀ {finalizer exit k}, scope.kind = .finalizing finalizer → s.cleanups scope.id exit = some k →
    Cleans env s outer finalizer exit (Departs env s exit outer) k) ∧ Tended env s outer

/-- Since an earlier point no cleanup has been lost, and all there are have been filled. -/
structure Tidy (env : Environment) (chain : Chain) (earlier s : State) : Prop where
  kept : earlier.Remembers chain s
  tended : s.Tended env chain

variable {env : Environment} {s s' s'' earlier : State} {chain outer : Chain} {scope : Scope} {exit : Exit}
  {v : Value} {b c : BlockId} {k : Continuation} {p p' : Procedure}

/-! ### Later states -/

namespace State

theorem Ensues.refl (s : State) : s.Ensues s := ⟨fun here => ⟨_,here,.refl _⟩,.refl _⟩

theorem Ensues.of_same (procedure : s'.builder.procedure? = s.builder.procedure?) (output : s'.builder.output = s.builder.output) :
    s.Ensues s' := ⟨fun here => ⟨_,procedure.trans here,.refl _⟩,output ▸ .refl _⟩

theorem Ensues.trans (first : s.Ensues s') (second : s'.Ensues s'') : s.Ensues s'' where
  grows here := by
    obtain ⟨p',here',grows⟩ := first.grows here
    obtain ⟨p'',here'',grows'⟩ := second.grows here'
    exact ⟨p'',here'',grows.trans grows'⟩
  names := first.names.trans second.names

theorem Ensues.block (ensues : s.Ensues s') {block : Block} (here : s.builder.procedure? = some p) (found : p.graph.block? b = some block) :
    ∃ p' block', s'.builder.procedure? = some p' ∧ p'.graph.block? b = some block' ∧ block.Grows block' := by
  obtain ⟨p',here',grows⟩ := ensues.grows here
  obtain ⟨block',found',grown⟩ := grows.blocks found
  exact ⟨p',block',here',found',grown⟩

section
variable (ensues : s.Ensues s')
include ensues

theorem EndsWith.later (ends : s.EndsWith b t) : s'.EndsWith b t := by
  obtain ⟨p,block,here,found,ended⟩ := ends
  obtain ⟨p',block',here',found',grown⟩ := ensues.block here found
  exact ⟨p',block',here',found',(grown.ended ended).1⟩

theorem Bears.later (bears : s.Bears b v r) : s'.Bears b v r := by
  refine bears.imp_right fun ⟨isUnit,p,block,global,here,found,loaded,named⟩ => ⟨isUnit,?_⟩
  obtain ⟨p',block',here',found',grown⟩ := ensues.block here found
  exact ⟨p',block',global,here',found',grown.code.subset loaded,ensues.names.globalName named⟩

theorem Merges.later {target : BlockId} (merges : s.Merges target dest b r) : s'.Merges target dest b r := by
  obtain ⟨p,block,phi,here,found,inside,same,incoming⟩ := merges
  obtain ⟨p',block',here',found',grown⟩ := ensues.block here found
  obtain ⟨phi',inside',same',kept⟩ := grown.incoming phi inside
  exact ⟨p',block',phi',here',found',inside',same'.trans same,kept incoming⟩

theorem Joins.later (joins : s.Joins b k v) : s'.Joins b k v where
  ends := joins.ends.later ensues
  brings phi := by
    obtain ⟨r,bears,merges⟩ := joins.brings phi
    exact ⟨r,bears.later ensues,merges.later ensues⟩

theorem Performs.later (performs : s.Performs b v kind exit) : s'.Performs b v kind exit := by
  unfold Performs at performs ⊢
  split at performs
  · split at performs
    · rename_i void
      exact (if_pos void).mpr (performs.later ensues)
    · rename_i valued
      obtain ⟨r,bears,ends⟩ := performs
      exact (if_neg valued).mpr ⟨r,bears.later ensues,ends.later ensues⟩
  · exact performs.later ensues
  · exact performs.later ensues
  · exact performs.later ensues
  · exact performs

end

theorem Remembers.tail (remembers : Remembers (scope :: outer) s s') : Remembers outer s s' :=
  fun other inside => remembers other (.tail _ inside)

end State

theorem Leads.ensues {owner : Option Nat} {supply supply' : Supply} (leads : Leads chain owner supply s supply' s') : s.Ensues s' where
  grows here := by
    obtain ⟨p',here',later⟩ := leads.later here
    exact ⟨p',here',later.grows⟩
  names := leads.names

theorem Cleans.later {finalizer : Expr} {onwards onwards' : Value → BlockId → Prop}
    (cleans : Cleans env s outer finalizer exit onwards k) (ensues : s.Ensues s') (path : ∀ {v b}, onwards v b → onwards' v b) :
    Cleans env s' outer finalizer exit onwards' k := by
  cases cleans with
  | stops bounded begins blank run ended before => exact .stops bounded begins blank run ended (before.trans ensues)
  | goesOn bounded begins blank run ends leaves before onwards =>
    exact .goesOn bounded begins blank run ends leaves (before.trans ensues) (path onwards)

theorem Departs.later (departs : Departs env s exit chain v b) (ensues : s.Ensues s') (remembers : s.Remembers chain s') :
    Departs env s' exit chain v b := by
  induction chain generalizing v b with
  | nil => exact departs
  | cons scope outer ih =>
    obtain ⟨id,kind⟩ := scope
    have passes : ∀ {kind}, (if kind.claims exit then s.Performs b v kind exit else Departs env s exit outer v b) →
        if kind.claims exit then s'.Performs b v kind exit else Departs env s' exit outer v b := by
      intro kind departs
      split at departs
      · exact (if_pos ‹_›).mpr (departs.later ensues)
      · exact (if_neg ‹_›).mpr (ih departs remembers.tail)
    cases kind with
    | finalizing finalizer =>
      obtain ⟨k,known,joins,cleans⟩ := departs
      exact ⟨k,remembers _ (.head _) known,joins.later ensues,cleans.later ensues fun departs => ih departs remembers.tail⟩
    | _ => exact passes departs

namespace State

theorem Tended.later (tended : s.Tended env chain) (ensues : s.Ensues s')
    (same : ∀ scope ∈ chain, s'.cleanups scope.id = s.cleanups scope.id) : s'.Tended env chain := by
  induction chain with
  | nil => trivial
  | cons scope outer ih =>
    have sameOuter : ∀ other ∈ outer, s'.cleanups other.id = s.cleanups other.id :=
      fun other inside => same other (.tail _ inside)
    refine ⟨fun {finalizer exit k} kind known => ?_,ih tended.2 sameOuter⟩
    rw [same scope mem_cons_self] at known
    refine (tended.1 kind known).later ensues fun departs => departs.later ensues fun other inside {_ _} known => ?_
    rw [sameOuter other inside]
    exact known

end State

namespace Tidy

theorem later (tidy : Tidy env chain earlier s) (ensues : s.Ensues s')
    (same : ∀ scope ∈ chain, s'.cleanups scope.id = s.cleanups scope.id) : Tidy env chain earlier s' where
  kept scope inside {_ _} known := by
    rw [same scope inside]
    exact tidy.kept scope inside known
  tended := tidy.tended.later ensues same

theorem fresh (tidy : Tidy env chain earlier s) : Tidy env chain s s := ⟨fun _ _ {_ _} known => known,tidy.tended⟩

theorem since (tidy : Tidy env chain earlier s) (after : Tidy env chain s s') : Tidy env chain earlier s' :=
  ⟨fun scope inside {_ _} known => after.kept scope inside (tidy.kept scope inside known),after.tended⟩

theorem tail (tidy : Tidy env (scope :: outer) earlier s) : Tidy env outer earlier s := ⟨tidy.kept.tail,tidy.tended.2⟩

theorem inward (before : Tidy env (scope :: outer) earlier s) (after : Tidy env outer s s') (ensues : s.Ensues s')
    (known : ∀ {exit k}, s.cleanups scope.id exit = some k → s'.cleanups scope.id exit = some k)
    (new : ∀ {finalizer exit k}, scope.kind = .finalizing finalizer → s'.cleanups scope.id exit = some k →
      s.cleanups scope.id exit = some k ∨ Cleans env s' outer finalizer exit (Departs env s' exit outer) k) :
    Tidy env (scope :: outer) earlier s' where
  kept other inside {_ _} there := by
    rcases mem_cons.mp inside with rfl | inside
    · exact known (before.kept _ (.head _) there)
    · exact after.kept other inside (before.kept.tail other inside there)
  tended := by
    refine ⟨fun kind there => (new kind there).elim (fun old => ?_) id,after.tended⟩
    exact (before.tended.1 kind old).later ensues fun departs => departs.later ensues after.kept

end Tidy

/-! ### Scopes and their cleanups -/

namespace State

theorem cleanups_of_scopes (same : s'.scopes = s.scopes) : s'.cleanups = s.cleanups := by
  unfold cleanups
  rw [same]

theorem cleanups_modify {f : ScopeState → ScopeState} (same : ∀ state, (f state).cleanups = state.cleanups) :
    cleanups { s with scopes := s.scopes.modify id f } = s.cleanups := by
  funext i exit
  show (((s.scopes.modify id f)[i]?).getD .empty).cleanups.get? exit = _
  rw [Array.getElem?_modify,cleanups]
  split
  · cases s.scopes[i]? with
    | none => rfl
    | some state => exact congrArg (fun t => Table.get? t exit) (same state)
  · rfl

theorem cleanups_push : cleanups { s with scopes := s.scopes.push .empty } = s.cleanups := by
  funext i exit
  show (((s.scopes.push .empty)[i]?).getD .empty).cleanups.get? exit = _
  rw [getElem?_push,cleanups]
  split
  · rename_i last
    rw [last,Array.getElem?_eq_none (Nat.le_refl _)]
    rfl
  · rfl

theorem cleanups_take {n : Nat} {i : Nat} (low : i < n) : cleanups { s with scopes := s.scopes.take n } i = s.cleanups i := by
  funext exit
  show (((s.scopes.take n)[i]?).getD .empty).cleanups.get? exit = _
  have same : (s.scopes.take n)[i]? = s.scopes[i]? := by
    simp only [take_eq_extract,getElem?_extract,Nat.sub_zero,Nat.zero_add]
    split
    · rfl
    · rw [Array.getElem?_eq_none (by omega)]
  rw [same,cleanups]

def remember (s : State) (id : Nat) (exit : Exit) (k : Continuation) : State :=
  { s with scopes := s.scopes.modify id fun state => { state with cleanups := state.cleanups.insert exit k } }

theorem cleanups_remember (present : id < s.scopes.size) : (s.remember id exit k).cleanups id exit = some k ∧
      ∀ {i other}, i ≠ id ∨ other ≠ exit → (s.remember id exit k).cleanups i other = s.cleanups i other := by
  have shape : ∀ i other, (s.remember id exit k).cleanups i other = (((s.scopes.modify id fun state =>
      { state with cleanups := state.cleanups.insert exit k })[i]?).getD .empty).cleanups.get? other := fun _ _ => rfl
  simp only [shape,Array.getElem?_modify]
  refine ⟨by simp [present],fun {i other} apart => ?_⟩
  split
  · rename_i same
    subst same
    have differs : other ≠ exit := apart.resolve_left (not_not_intro rfl)
    simp [present,cleanups,Table.get?_insert,differs]
  · rfl

theorem cleanups_size : s.cleanups s.scopes.size exit = none := by
  rw [cleanups,Array.getElem?_eq_none (Nat.le_refl _)]
  rfl

end State

theorem Tidy.push (tidy : Tidy env chain earlier s) :
    Tidy env (⟨s.scopes.size,kind⟩ :: chain) { s with scopes := s.scopes.push .empty } { s with scopes := s.scopes.push .empty } where
  kept _ _ {_ _} known := known
  tended := by
    refine ⟨fun _ known => ?_,tidy.tended.later (.of_same rfl rfl) fun _ _ => by rw [State.cleanups_push]⟩
    rw [State.cleanups_push,State.cleanups_size] at known
    cases known

theorem Tidy.close (tidy : Tidy env chain earlier s)
    (inside : Tidy env (⟨s.scopes.size,kind⟩ :: chain) { s with scopes := s.scopes.push .empty } s')
    (ordered : ∀ scope ∈ chain, scope.id < s.scopes.size) : Tidy env chain earlier { s' with scopes := s'.scopes.take s.scopes.size } := by
  have closed : Tidy env chain { s with scopes := s.scopes.push .empty } { s' with scopes := s'.scopes.take s.scopes.size } :=
    inside.tail.later (.of_same rfl rfl) fun scope member => State.cleanups_take (ordered scope member)
  refine ⟨fun scope member {_ _} known => closed.kept scope member ?_,closed.tended⟩
  rw [State.cleanups_push]
  exact tidy.kept scope member known

/-! ### What exits build -/

@[simp] theorem Builder.globalName?_put {b : Builder} {global : GlobalId} :
    (b.put p).output.globalName? global = b.output.globalName? global := by
  unfold put modifyProcedure
  cases b.current <;> rfl

theorem State.Blank.other (blank : s.Blank b) (here : s.builder.procedure? = some p)
    (here' : s'.builder.procedure? = some p') (image : ∀ x, p'.graph.block? x = (p.graph.block? x).map (change x))
    (same : ∀ block, (change b block).code = block.code ∧ (change b block).terminator = block.terminator) : s'.Blank b := by
  obtain ⟨q,block,there,found,empty,isOpen⟩ := blank
  obtain rfl := mem_unique here there
  exact ⟨p',change b block,here',by rw [image,found]; rfl,(same block).1.trans empty,(same block).2.trans isOpen⟩

theorem State.Bears.put (bears : s.Bears b v register)
    (here : s.builder.procedure? = some p) (image : ∀ x, p'.graph.block? x = (p.graph.block? x).map (change x))
    (same : ∀ block, (change b block).code = block.code) : (s.put p').Bears b v register := by
  refine bears.imp_right fun ⟨isUnit,q,block,global,there,found,loaded,named⟩ => ⟨isUnit,?_⟩
  obtain rfl := mem_unique here there
  refine ⟨p',change b block,global,procedure?_put here,by rw [image,found]; rfl,by rwa [same],?_⟩
  exact globalName?_put.trans named

theorem exists_withIncoming {edge : BlockId × Register} {phis : List Phi} (there : dest ∈ phis.map Phi.dest) :
    ∃ phi ∈ withIncoming dest edge phis, phi.dest = dest ∧ edge ∈ phi.incoming := by
  induction phis with
  | nil => cases there
  | cons phi rest ih =>
    unfold withIncoming
    split
    · rename_i same
      exact ⟨_,.head _,same,mem_append_right _ (mem_singleton_self _)⟩
    · rename_i other
      obtain ⟨phi',inside,same,incoming⟩ := ih ((mem_cons.mp there).resolve_left fun same => other same.symm)
      exact ⟨phi',.tail _ inside,same,incoming⟩

namespace Lower
variable {u : Unit} {r : Recurse}

theorem Runs.bears (run : Runs (materialize v) env s register s') (stands : s.Stands p c)
    (named : s.Named env) : ∃ p', s'.Stands p' c ∧ s'.scopes = s.scopes ∧ s'.Bears c v register ∧ (∀ {b}, b ≠ c → s.Blank b → s'.Blank b) ∧
      ∀ {b block}, p.graph.block? b = some block → ∃ block', p'.graph.block? b = some block' ∧ block'.phis = block.phis := by
  unfold materialize at run
  cases form : v.form with
  | register own =>
    simp only [form,runs_pure] at run
    obtain ⟨rfl,rfl⟩ := run
    exact ⟨p,stands,rfl,.inl form,fun _ blank => blank,fun found => ⟨_,found,rfl⟩⟩
  | unit =>
    simp only [form,runs_bind] at run
    obtain ⟨global,s₁,entered,made⟩ := run
    obtain ⟨quiet,known⟩ := entered.globalOf_entered
    have after := stands.quiet quiet
    obtain ⟨builder,built,rfl⟩ := runs_build.mp made
    obtain ⟨rfl,block,found,-,rfl⟩ := built.define after.procedure after.cursor
    refine ⟨_,after.put,quiet.scopes,.inr ⟨form,?_⟩,?_,?_⟩
    · refine ⟨_,_,global,after.put.procedure,(Procedure.block?_modifyBlock c).trans (congrArg _ found),?_,?_⟩
      · dsimp only
        rw [if_pos rfl,Block.code_append _ rfl]
        exact mem_append_right _ (mem_singleton_self _)
      · rw [globalName?_put]
        obtain ⟨_,⟨⟩,entered⟩ := (quiet.named named).globals known
        exact entered
    · exact fun other blank => blank.other stands.procedure after.put.procedure Procedure.block?_modifyBlock
        fun block => by simp [other]
    · intro b block found
      refine ⟨_,(Procedure.block?_modifyBlock b).trans (congrArg _ found),?_⟩
      split <;> rfl
  | unreachable => simp [form] at run

theorem Runs.endsWith (run : Runs (build (terminate t)) env s u s') (stands : s.Stands p c) :
    s' = s.put (p.close c t) ∧ s'.EndsWith c t := by
  obtain ⟨_,built,rfl⟩ := runs_build.mp run
  obtain ⟨block,found,-,rfl⟩ := built.terminate stands.procedure stands.cursor
  exact ⟨rfl,_,_,procedure?_put stands.procedure,(Procedure.block?_close c).trans (congrArg _ found),if_pos rfl⟩

theorem Runs.joins (run : Runs (jump k v) env s u s') (stands : s.Stands p c) (alive : ¬ s.Closed) (named : s.Named env)
    {supply : Supply} {counted : List Register} (there : Known supply p k counted) : s'.Joins c k v ∧ ∀ {b}, b ≠ c → s.Blank b → s'.Blank b := by
  unfold jump at run
  simp only [runs_bind,runs_isTerminated,and_assoc,exists_and_left,exists_eq_left,if_neg (show ¬ s.builder.isTerminated = true from alive)] at run
  obtain ⟨source,s₀,inserted,run⟩ := run
  obtain ⟨_,built,rfl⟩ := runs_build.mp inserted
  obtain ⟨atCursor,rfl⟩ := Build.runs_insertionBlock.mp built
  obtain rfl := mem_unique stands.cursor atCursor
  cases phi : k.phi with
  | none =>
    simp only [phi] at run
    obtain ⟨rfl,ends⟩ := endsWith (t := .branch k.block) run stands
    refine ⟨⟨ends,fun some => ?_⟩,fun other blank => ?_⟩
    · simp [phi] at some
    · exact blank.other stands.procedure stands.put.procedure Procedure.block?_close fun block => ⟨rfl,if_neg other⟩
  | some dest =>
    simp only [phi,runs_bind] at run
    obtain ⟨value,s₁,found,jumped⟩ := run
    obtain ⟨p₁,stands₁,-,bears,blanks,phis⟩ := found.bears stands named
    obtain ⟨builder,built,rfl⟩ := runs_build.mp jumped
    obtain ⟨_,b₁,ended,recorded⟩ := Build.runs_bind.mp built
    obtain ⟨block,foundc,isOpen,rfl⟩ := ended.terminate stands₁.procedure stands₁.cursor
    obtain rfl := recorded.addIncoming (procedure?_put stands₁.procedure)
    rw [put_put]
    have here : (s₁.builder.put (p₁.jump c k.block dest value)).procedure? = some (p₁.jump c k.block dest value) :=
      procedure?_put stands₁.procedure
    obtain ⟨target,foundk,merges⟩ := there.there
    obtain ⟨target₁,foundk₁,samePhis⟩ := phis foundk
    refine ⟨⟨⟨_,_,here,(Procedure.block?_jump c).trans (congrArg _ foundc),if_pos rfl⟩,fun {dest'} same => ?_⟩,fun other blank => ?_⟩
    · cases (phi.symm.trans same)
      refine ⟨value,bears.put stands₁.procedure Procedure.block?_jump fun _ => rfl,?_⟩
      have recorded : ∃ phi' ∈ Build.withIncoming dest (c, value) target₁.phis, phi'.dest = dest ∧ (c, value) ∈ phi'.incoming :=
        exists_withIncoming (by rw [samePhis,merges,phi]; exact mem_singleton_self dest)
      obtain ⟨phi',inside,same,incoming⟩ := recorded
      exact ⟨_,_,phi',here,(Procedure.block?_jump _).trans (congrArg _ foundk₁),
        by simpa [Procedure.whenJumped] using inside,same,incoming⟩
    · exact (blanks other blank).other stands₁.procedure here Procedure.block?_jump fun block => ⟨rfl,if_neg other⟩

theorem Runs.returns {returnsVoid : Bool} (run : Runs (returnFrom returnsVoid v) env s u s') (stands : s.Stands p c)
    (named : s.Named env) : if returnsVoid then s'.EndsWith c (.ret none) else ∃ r, s'.Bears c v r ∧ s'.EndsWith c (.ret (some r)) := by
  unfold returnFrom at run
  split at run
  · rw [if_pos ‹_›]
    exact (endsWith (t := .ret none) run stands).2
  · obtain ⟨register,s₁,found,run⟩ := runs_bind.mp run
    obtain ⟨p₁,stands₁,-,bears,-⟩ := found.bears stands named
    obtain ⟨rfl,ends⟩ := endsWith (t := .ret (some register)) run stands₁
    rw [if_neg ‹_›]
    exact ⟨register,bears.put stands₁.procedure Procedure.block?_close fun _ => rfl,ends⟩

theorem Runs.restarts {check : BlockId} (run : Runs (restart check) env s u s') (stands : s.Stands p c) (alive : ¬ s.Closed) :
    s'.EndsWith c (.branch check) := by
  unfold restart at run
  simp only [runs_bind,runs_isTerminated,and_assoc,exists_and_left,exists_eq_left,
    if_neg (show ¬ s.builder.isTerminated = true from alive)] at run
  exact (endsWith (t := .branch check) run stands).2

theorem Runs.newContinuation {ty : Ty} {label : String} (run : Runs (newContinuation ty label) env s k s') (stands : s.Stands p c) :
    s'.Blank k.block ∧ s'.builder.cursor = some c ∧ s'.scopes = s.scopes ∧ k.ty = ty := by
  unfold Lower.newContinuation at run
  simp only [runs_bind] at run
  obtain ⟨block,s₁,made,run⟩ := run
  have blank : s₁.Blank block ∧ s₁.scopes = s.scopes ∧ ∃ p₁, s₁.Stands p₁ c := by
    obtain ⟨_,built,rfl⟩ := runs_build.mp made
    obtain ⟨rfl,_,rfl | rfl,rfl⟩ := built.labelledBlock stands.procedure
    · refine ⟨⟨_,_,procedure?_put stands.procedure,Procedure.block?_createBlock.trans (if_pos rfl),rfl,rfl⟩,rfl,_,stands.put⟩
    · have created := (Procedure.block?_createBlock (p := p)).trans (if_pos rfl)
      refine ⟨⟨_,_,procedure?_put stands.procedure,(Procedure.block?_modifyBlock _).trans (congrArg _ created),?_⟩,
        rfl,_,stands.put⟩
      simp [Block.code,Block.new]
  obtain ⟨blank,scopes,p₁,stands₁⟩ := blank
  split at run
  · obtain ⟨rfl,rfl⟩ := runs_pure.mp run
    exact ⟨blank,stands₁.cursor,scopes,rfl⟩
  · simp only [runs_bind] at run
    obtain ⟨phi,s₂,merged,run⟩ := run
    obtain ⟨rfl,rfl⟩ := runs_pure.mp run
    obtain ⟨_,built,rfl⟩ := runs_build.mp merged
    obtain ⟨rfl,-,rfl⟩ := built.phi stands₁.procedure
    refine ⟨blank.other stands₁.procedure (procedure?_put stands₁.procedure) Procedure.block?_modifyBlock
      fun block => by split <;> exact ⟨rfl,rfl⟩,by rw [put_cursor,stands₁.cursor],scopes,rfl⟩

/-- Up to the first finalizing scope on its way an exit passes all scopes. -/
theorem leave_finalizing (first : finalizing? exit chain = some id) :
    ∃ finalizer outer, leave r chain exit v = leave r (⟨id,.finalizing finalizer⟩ :: outer) exit v := by
  induction chain with
  | nil => cases first
  | cons scope outer ih =>
    obtain ⟨number,kind⟩ := scope
    obtain ⟨step,same,exits⟩ := exits_leave number kind outer exit v
    cases exits with
    | finalizing =>
      cases first
      exact ⟨_,outer,rfl⟩
    | outwards passed plain =>
      have further : finalizing? exit outer = some id := by
        cases kind with
        | finalizing finalizer => exact absurd rfl (plain finalizer)
        | _ => exact (if_neg (by simp [passed])).symm.trans first
      obtain ⟨finalizer,inner,rest⟩ := ih further
      exact ⟨finalizer,inner,(congrFun same r).trans rest⟩
    | _ => simp [finalizing?,ScopeKind.claims] at first

/-- An exit for which the first finalizing scope on its way has a cleanup is a jump there. -/
theorem Runs.leave_remembered (run : Runs (leave r chain exit v) env s u s')
    (first : finalizing? exit chain = some id) (known : s.cleanups id exit = some k) : Runs (jump k v) env s u s' := by
  obtain ⟨finalizer,outer,same⟩ := leave_finalizing (r := r) (v := v) first
  rw [same] at run
  unfold leave at run
  simp only [runs_bind,runs_scopeState,and_assoc,exists_and_left,exists_eq_left] at run
  rwa [show ((s.scopes[id]?).getD .empty).cleanups.get? exit = some k from known] at run

end Lower

end BlockLowering
