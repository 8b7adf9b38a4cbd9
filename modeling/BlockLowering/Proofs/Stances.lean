import BlockLowering.Proofs.Finalizers
/-!
Stances. A stance is a point of a run with both sides of it: which registers have values there, so that the
code that follows is sound, and whether code can follow at all, so that no step fails. Besides it says which
blocks the cursor comes to later, and what has been done since the stance was taken up first. Every step is
described once, by the stance that it leads to.
-/
namespace BlockLowering
open Lower List Procedure Chain Builder Instr Standing

/-- How a block is waited for: no path leads there yet, or some may, or scopes may name it. -/
inductive Role where
  | later
  | other
  | target

/-- A block that the cursor comes to later, and what is counted on there. -/
structure Ahead where
  place : Continuation
  counted : List Register
  role : Role

abbrev Ahead.block (a : Ahead) : BlockId := a.place.block

/-- A continuation and what is counted on there. -/
abbrev Joint := Continuation × List Register

namespace Waits

/-- Wait for the blocks ahead besides. -/
def plus (w : Waits) : List Ahead → Waits
  | [] => w
  | ⟨_,_,.later⟩ :: rest => w.plus rest
  | ⟨k,_,.other⟩ :: rest => (w.plus rest).other k.block
  | ⟨k,_,.target⟩ :: rest => (w.plus rest).target k.block

variable {w w' : Waits} {ahead ahead' : List Ahead} {x : BlockId}

theorem mem_plus : x ∈ (w.plus ahead).all ↔ (∃ a ∈ ahead, a.role ≠ .later ∧ a.block = x) ∨ x ∈ w.all := by
  induction ahead with
  | nil => simp [plus]
  | cons a rest ih =>
    obtain ⟨k,counted,role⟩ := a
    cases role <;> simp [plus,ih,or_assoc,eq_comm]

theorem mem_plus_targets : x ∈ (w.plus ahead).targets ↔ (∃ a ∈ ahead, a.role = .target ∧ a.block = x) ∨ x ∈ w.targets := by
  induction ahead with
  | nil => simp [plus]
  | cons a rest ih =>
    obtain ⟨k,counted,role⟩ := a
    cases role <;> simp [plus,other,target,ih,or_assoc,eq_comm]

theorem plus_within (more : ahead ⊆ ahead') (wider : w.Within w') : (w.plus ahead).Within (w'.plus ahead') where
  targets x inside := by
    rw [mem_plus_targets] at inside ⊢
    exact inside.imp (fun found => found.imp fun _ there => ⟨more there.1,there.2⟩) fun old => wider.targets old
  all x inside := by
    rw [mem_plus] at inside ⊢
    exact inside.imp (fun found => found.imp fun _ there => ⟨more there.1,there.2⟩) fun old => wider.all old

end Waits

/-- Where a stance was taken up: with which levels of the scopes around it, what was waited for outside, and which
    blocks are kept back for others to fill. Variables are declared in the scope `owner` alone. -/
structure Outset (env : Environment) (roots : Expr → Prop) (chain : Chain) where
  levels : List Level
  owner : Option Nat
  waits : Waits
  kept : List BlockId
  supply : Supply
  state : State

section
variable {α β : Type} {env : Environment} {roots : Expr → Prop} {chain : Chain}

/-- The cursor has left the entry: where that is still open, it is kept back. -/
def State.Away (kept : List BlockId) (s : State) : Prop :=
  ∀ {p}, s.builder.procedure? = some p → p.IsOpen p.graph.entry → p.graph.entry ∈ kept

/-- What holds of the function and the block at the cursor in a stance. -/
structure Point (o : Outset env roots chain) (available : List Register) (ahead : List Ahead) (known : List Joint)
    (live : Prop) (supply : Supply) (s : State) (p : Procedure) (c : BlockId) : Prop where
  standing : Standing env roots supply s p c chain o.levels available (o.waits.plus ahead)
  led : Leads chain o.owner o.supply o.state supply s
  footing : Footing (ahead.map Ahead.block ++ o.kept) s p c
  live : p.IsOpen c ↔ live
  ahead : ∀ a ∈ ahead, Known supply p a.place a.counted
  known : ∀ j ∈ known, Known supply p j.1 j.2 ∧ Awaited p [] j.1.block
  tidy : Tidy env chain o.state s
  rooted : p.IsOpen p.graph.entry → p.graph.entry = c ∨ p.graph.entry ∈ o.kept

/-- A point where the registers in `available` have values, with the blocks that the cursor comes to later
    and joints that paths lead to. Code can follow exactly if `live` holds. -/
structure Stance (o : Outset env roots chain) (available : List Register) (ahead : List Ahead) (known : List Joint)
    (live : Prop) (s : State) : Prop where
  point : ∃ supply p c, Point o available ahead known live supply s p c

/-- From points like this paths may be brought to a continuation. -/
abbrev Offers (o : Outset env roots chain) (available : List Register) (ahead : List Ahead) (known : List Joint)
    (live : Prop) (s : State) (k : Continuation) (counted : List Register) : Prop :=
  ∀ {supply p c}, Point o available ahead known live supply s p c →
    Known supply p k counted ∧ Awaited p ((o.waits.plus ahead).all ++ chain.handlers s.scopes) k.block

/-- A joint that a path may be brought to. -/
def Expects (ahead : List Ahead) (known : List Joint) (k : Continuation) (counted : List Register) : Prop :=
  (∃ role, role ≠ .later ∧ Ahead.mk k counted role ∈ ahead) ∨ (k, counted) ∈ known

variable {o : Outset env roots chain} {available available' needs counted : List Register} {ahead ahead' : List Ahead}
  {known known' : List Joint} {live live' : Prop} {supply supply' : Supply} {s s' : State} {p p' : Procedure}
  {b c c' : BlockId} {k : Continuation} {v : Value} {role : Role}

theorem Expects.first (active : role ≠ .later) : Expects (⟨k,counted,role⟩ :: ahead) known k counted :=
  .inl ⟨role,active,.head _⟩

theorem Expects.next {a : Ahead} (expects : Expects ahead known k counted) : Expects (a :: ahead) known k counted :=
  expects.imp_left fun ⟨role,active,inside⟩ => ⟨role,active,.tail _ inside⟩

theorem Expects.offers (expects : Expects ahead known k counted) : Offers o available ahead known live s k counted := by
  intro supply p c point
  rcases expects with ⟨role,active,inside⟩ | inside
  · exact ⟨point.ahead _ inside,.inl (mem_append_left _ (Waits.mem_plus.mpr (.inl ⟨_,inside,active,rfl⟩)))⟩
  · exact ⟨(point.known _ inside).1,(point.known _ inside).2.later (.refl p) (nil_subset _)⟩

theorem Awaited.named {waits : Waits} {others : List BlockId} (awaited : Awaited p waits.targets b) : Awaited p (waits.all ++ others) b :=
  awaited.later (.refl p) fun _ h => mem_append_left _ (subset_append_left _ _ h)

theorem append_subset_append (more : List Register) {needs available : List Register} (held : needs ⊆ available) :
    more ++ needs ⊆ more ++ available :=
  append_subset.mpr ⟨subset_append_left _ _,fun _ h => mem_append_right _ (held h)⟩

/-! ### Points -/

theorem Standing.arrive {a : Ahead} {levels : List Level} {waits : Waits}
    (standing : Standing env roots supply s p c chain levels available (waits.plus (a :: ahead)))
    (done : a.block = c ∨ ¬ p.IsOpen a.block) (settled : a.role = .target → Awaited p [] a.block) :
    Standing env roots supply s p c chain levels available (waits.plus ahead) := by
  obtain ⟨k,counted,role⟩ := a
  cases role with
  | later => exact standing
  | other => exact standing.dropOther (done.imp_right .inr)
  | target => exact standing.dropTarget ((settled rfl).later (.refl p) (nil_subset _)) done

/-- The outset of a part of a run that begins here. -/
def Outset.anew (o : Outset env roots chain) (supply : Supply) (s : State) : Outset env roots chain :=
  { o with owner := none, supply, state := s }

namespace Point

theorem moves (point : Point o available ahead known live supply s p c)
    (after : Standing env roots supply' s' p' c' chain o.levels available' (o.waits.plus ahead'))
    (leads : Leads chain none supply s supply' s') (footing : Footing (ahead'.map Ahead.block ++ o.kept) s' p' c')
    (isOpen : p'.IsOpen c' ↔ live') (calm : s'.cleanups = s.cleanups) (left : c' = c ∨ (p.IsOpen c → c ≠ p.graph.entry))
    (aheads : ∀ a ∈ ahead', a ∈ ahead ∨ Known supply' p' a.place a.counted)
    (joints : ∀ j ∈ known', j ∈ known ∨ Known supply' p' j.1 j.2 ∧ Awaited p' [] j.1.block) :
    Point o available' ahead' known' live' supply' s' p' c' := by
  obtain ⟨q,here,later⟩ := leads.later point.standing.stands.procedure
  obtain rfl := after.unique here
  refine ⟨after,point.led.trans (leads.widen fun _ h => h),footing,isOpen,fun a inside => ?_,fun j inside => ?_,
    point.tidy.later leads.ensues fun _ _ => by rw [calm],fun rootOpen => ?_⟩
  · exact (aheads a inside).elim (fun old => (point.ahead a old).later later) id
  · refine (joints j inside).elim (fun old => ?_) id
    exact ⟨(point.known j old).1.later later,(point.known j old).2.later later.grows (nil_subset _)⟩
  · rw [later.grows.entry] at rootOpen ⊢
    have before := later.grows.isOpen point.standing.sound.entry rootOpen
    refine (point.rooted before).imp_left fun here => ?_
    rcases left with rfl | moved
    · exact here
    · exact absurd here.symm (moved (here ▸ before))

theorem since (point : Point o available ahead known live supply s p c)
    (after : Point (o.anew supply s) available' ahead' known' live' supply' s' p' c') :
    Point o available' ahead' known' live' supply' s' p' c' :=
  { after with
    led := point.led.trans (after.led.widen fun _ h => h)
    tidy := point.tidy.since after.tidy }

variable (point : Point o available ahead known live supply s p c)
include point

theorem fresh : Point (o.anew supply s) available ahead known live supply s p c :=
  { point with
    led := .refl _ _ _ _
    tidy := point.tidy.fresh }

theorem weaken (same : ahead.Perm ahead') (fewer : available' ⊆ available) (covered : Covered o.levels available')
    (less : known' ⊆ known) : Point o available' ahead' known' live supply s p c :=
  { point with
    standing := point.standing.weaken fewer covered (Waits.plus_within same.subset (.refl _))
    footing := point.footing.reorder (((same.map _).append_right _).append_right _)
    ahead := fun a inside => point.ahead a (same.mem_iff.mpr inside)
    known := fun j inside => point.known j (less inside) }

theorem edit (step : Standing env roots supply' (s.put p') p' c chain o.levels available' (o.waits.plus ahead) ∧
    Leads chain none supply s supply' (s.put p')) (same : ∀ {b}, p'.IsOpen b ↔ p.IsOpen b) :
    Point o available' ahead known live supply' (s.put p') p' c :=
  point.moves step.1 step.2 (point.footing.later (fun _ => same.mpr) rfl) (same.trans point.live) rfl (.inl rfl)
    (fun _ => .inl) fun _ => .inl

theorem gain {merges : List Phi} (gains : p.Gains supply supply' p' k.block counted merges) (there : Known supply' p' k counted)
    (role : Role) : Point o available (⟨k,counted,role⟩ :: ahead) known live supply' (s.put p') p' c := by
  obtain ⟨after,leads⟩ := point.standing.gain gains
  obtain ⟨block,found,-,isOpen,-⟩ := gains.blank
  have same : ∀ {x}, x ≠ k.block → (p'.IsOpen x ↔ p.IsOpen x) := fun other => isOpen_congr (gains.others other)
  have new := point.footing.fresh point.standing.here gains.absent
  have footing : Footing (ahead.map Ahead.block ++ o.kept) (s.put p') p' c := by
    refine point.footing.later (fun {x} _ isOpen => (same ?_).mpr isOpen) rfl
    rintro rfl
    obtain ⟨_,found,-⟩ := isOpen
    simp [gains.absent] at found
  have others : c ≠ k.block := fun same => new (same ▸ (.head _))
  exact point.moves (after.await (Waits.plus_within (subset_cons_self _ _) (.refl _))) leads
    (footing.wait ⟨block,found,isOpen⟩ new) ((same others).trans point.live) rfl (.inl rfl)
    (forall_mem_cons.mpr ⟨.inr there,fun _ => .inl⟩) fun _ => .inl

end Point

theorem Point.close {t : Terminator} (point : Point o available ahead known True supply s p c) (joints : List Joint)
    (uses : t.uses ⊆ available) (dest : ∀ r ∈ t.dest?, p.Fresh supply c r) (successors : t.successors = joints.map fun j => j.1.block)
    (reach : ∀ j ∈ joints, j.1.phi = none ∧ j.2 ⊆ t.given j.1.block ++ available ∧ Known supply p j.1 j.2 ∧
      Awaited p ((o.waits.plus ahead).all ++ chain.handlers s.scopes) j.1.block) :
    Point o available ahead (joints ++ known) False supply (s.put (p.close c t)) (p.close c t) c := by
  obtain ⟨block,found,isOpen⟩ := point.live.mpr trivial
  obtain ⟨after,leads⟩ := point.standing.close (t := t) found isOpen uses dest (by
    intro x target
    rw [successors] at target
    obtain ⟨j,inside,rfl⟩ := mem_map.mp target
    obtain ⟨bare,held,there,awaited⟩ := reach j inside
    obtain ⟨target,foundTarget,merges⟩ := there.there
    exact ⟨there.inner,⟨target,foundTarget,by simpa [bare] using merges⟩,there.supply ▸ held,awaited⟩)
    point.standing.reaches.taken point.standing.covered
  obtain ⟨q,here,later⟩ := leads.later point.standing.stands.procedure
  obtain rfl := after.unique here
  refine point.moves after leads (point.footing.later (fun other isOpen => isOpen_close.mpr ⟨other,isOpen⟩) rfl)
    (iff_false_intro fun isOpen => (isOpen_close.mp isOpen).1 rfl) rfl (.inl rfl) (fun _ => .inl) fun j inside => ?_
  refine (mem_append.mp inside).symm.imp_right fun inside => ?_
  obtain ⟨-,-,there,-⟩ := reach j inside
  obtain ⟨target,foundTarget,-⟩ := there.there
  exact ⟨there.later later,.closing block?_close (fun _ _ => rfl) foundTarget (successors ▸ mem_map_of_mem inside)⟩

theorem Point.jump {dest value : Register} (point : Point o (value :: available) ahead known True supply s p c)
    (phi : k.phi = some dest) (there : Known supply p k counted)
    (awaited : Awaited p ((o.waits.plus ahead).all ++ chain.handlers s.scopes) k.block) (held : counted ⊆ available)
    (covered : Covered o.levels available) : Point o available ahead ((k, counted) :: known) False supply
      (s.put (p.jump c k.block dest value)) (p.jump c k.block dest value) c := by
  obtain ⟨block,found,isOpen⟩ := point.live.mpr trivial
  obtain ⟨target,foundTarget,merges⟩ := there.there
  have holds := point.standing.reaches.holds found isOpen
  have grows := point.standing.sound.grows_jump k.block dest value found isOpen
  have sound := point.standing.sound.jump found isOpen there.inner foundTarget (by rw [merges,phi]; rfl)
    (holds value (.head _)) fun r inside => holds r (.tail _ (held (there.supply ▸ inside)))
  have same : ∀ {b}, (p.jump c k.block dest value).IsOpen b ↔ b ≠ c ∧ p.IsOpen b :=
    isOpen_closing (t := .branch k.block) block?_jump fun _ _ => rfl
  have ended : ¬ (p.jump c k.block dest value).IsOpen c := fun isOpen => (same.mp isOpen).1 rfl
  obtain ⟨after,leads⟩ := point.standing.put ⟨grows,fun _ => rfl⟩ sound
    ⟨fun r inside => point.standing.reaches.taken r (.tail _ inside),fun found isOpen => absurd ⟨_,found,isOpen⟩ ended⟩
    covered (.refl _) (point.standing.accounted.closing (t := .branch k.block) grows _ block?_jump
      (fun _ _ => ⟨rfl,rfl⟩) (forall_mem_singleton.mpr awaited))
  refine point.moves after leads (point.footing.later (fun other isOpen => same.mpr ⟨other,isOpen⟩) rfl) (iff_false_intro ended)
    rfl (.inl rfl) (fun _ => .inl) (forall_mem_cons.mpr ⟨.inr ⟨there.later ⟨grows,fun _ => rfl⟩,?_⟩,fun _ => .inl⟩)
  exact .closing (t := .branch k.block) block?_jump (fun _ _ => rfl) foundTarget (mem_singleton_self _)

namespace Stance

section
variable (stance : Stance o available ahead known live s)
include stance

theorem covered : Covered o.levels available := by
  obtain ⟨supply,p,c,point⟩ := stance.point
  exact point.standing.covered

theorem congr (same : live ↔ live') : Stance o available ahead known live' s := propext same ▸ stance

theorem dead (ended : ¬ live) (ended' : ¬ live') : Stance o available ahead known live' s :=
  stance.congr (iff_of_false ended ended')

theorem weaken (same : ahead.Perm ahead') (fewer : available' ⊆ available) (covered : Covered o.levels available')
    (less : known' ⊆ known) : Stance o available' ahead' known' live s := by
  obtain ⟨supply,p,c,point⟩ := stance.point
  exact ⟨supply,p,c,point.weaken same fewer covered less⟩

theorem reorder (same : ahead.Perm ahead') : Stance o available ahead' known live s :=
  stance.weaken same (fun _ h => h) stance.covered fun _ h => h

theorem forget (fewer : available' ⊆ available) (covered : Covered o.levels available') :
    Stance o available' ahead known live s := stance.weaken (.refl _) fewer covered fun _ h => h

theorem also (more : available' ⊆ available) : Stance o (available' ++ available) ahead known live s :=
  stance.forget (append_subset.mpr ⟨more,fun _ h => h⟩) (stance.covered.mono (subset_append_right _ _))

theorem unlearn (less : known' ⊆ known) : Stance o available ahead known' live s :=
  stance.weaken (.refl _) (fun _ h => h) stance.covered less

theorem quiet (quiet : s.Quiet env s') : Stance o available ahead known live s' := by
  obtain ⟨supply,p,c,point⟩ := stance.point
  obtain ⟨after,leads⟩ := point.standing.annotate quiet
  exact ⟨supply,p,c,point.moves after leads (point.footing.later (fun _ => id) quiet.scopes) point.live
    (State.cleanups_of_scopes quiet.scopes) (.inl rfl) (fun _ => .inl) fun _ => .inl⟩

theorem logged (event : Event) : Stance o available ahead known live { s with log := event :: s.log } :=
  stance.quiet (.logged env s _)

theorem isTerminated : s.builder.isTerminated = true ↔ ¬ live := by
  obtain ⟨supply,p,c,point⟩ := stance.point
  exact point.standing.closed_iff.trans (not_congr point.live)

theorem alive (notEnded : s.builder.isTerminated = false) : live :=
  Classical.not_not.mp fun dead => by simp [stance.isTerminated.mpr dead] at notEnded

theorem notEnded (alive : live) : s.builder.isTerminated = false := by
  simpa using (not_congr stance.isTerminated).mpr (not_not_intro alive)

theorem inner (away : s.Away o.kept) (stands : s.Stands p c) (isOpen : p.IsOpen c) : c ≠ p.graph.entry := by
  obtain ⟨supply,q,c',point⟩ := stance.point
  obtain rfl := point.standing.unique stands.procedure
  obtain rfl := Option.mem_unique point.standing.stands.cursor stands.cursor
  intro here
  have kept := away stands.procedure (here ▸ isOpen)
  exact (nodup_cons.mp point.footing.distinct).1 (mem_append_left _ (mem_append_right _ (here ▸ kept)))

theorem ended (dead : ¬ live) : ∀ p c, s.Stands p c → p.IsOpen c → c ≠ p.graph.entry ∧ LeftOpen env roots p c := by
  intro p c stands isOpen
  obtain ⟨supply,q,c',point⟩ := stance.point
  obtain rfl := point.standing.unique stands.procedure
  obtain rfl := Option.mem_unique point.standing.stands.cursor stands.cursor
  exact absurd (point.live.mp isOpen) dead

end

theorem keep {more extra : List Register} (stance : Stance o (extra ++ (more ++ available)) ahead known live s)
    (covered : Covered o.levels available) : Stance o (extra ++ available) ahead known live s :=
  stance.forget (append_subset.mpr ⟨subset_append_left _ _,fun _ h => mem_append_right _ (mem_append_right _ h)⟩)
    (covered.mono (subset_append_right _ _))

end Stance

/-! ### Straight-line code -/

def nothing (_ : α) : List Register := []

/-- Code that control passes through among the scopes of a chain: it needs some registers and gives more. Outside all
    scopes it stays in the block where it began. -/
structure Flows (env : Environment) (roots : Expr → Prop) (chain : Chain) (needs : List Register) (m : Lower α)
    (gives : α → List Register) : Prop where
  safe : ∀ {o : Outset env roots chain} {available ahead known s}, Stance o available ahead known True s → needs ⊆ available →
    Safe env m s fun a s' => Stance o (gives a ++ available) ahead known True s' ∧
      (chain = [] → s'.builder.cursor = s.builder.cursor)

namespace Flows
variable {m : Lower α} {gives : α → List Register}

protected theorem bind {f : α → Lower β} {gives' : β → List Register} (first : Flows env roots chain needs m gives)
    (rest : ∀ a, Flows env roots chain (gives a ++ needs) (f a) gives') : Flows env roots chain needs (m >>= f) gives' where
  safe stance held := (first.safe stance held).bind fun a _ there =>
    ((rest a).safe there.1 (append_subset_append _ held)).mono fun _ _ done =>
      ⟨done.1.keep stance.covered,fun outside => (done.2 outside).trans (there.2 outside)⟩

theorem andThen {f : α → Lower β} {gives' : β → List Register} (first : Flows env roots chain needs m nothing)
    (rest : ∀ a, Flows env roots chain needs (f a) gives') : Flows env roots chain needs (m >>= f) gives' :=
  first.bind rest

theorem buildBind {m : Build α} {f : α → Build β} {gives' : β → List Register} (first : Flows env roots chain needs (build m) gives)
    (rest : ∀ a, Flows env roots chain (gives a ++ needs) (build (f a)) gives') : Flows env roots chain needs (build (m >>= f)) gives' where
  safe stance held := safe_build_bind.mpr (safe_bind.mp ((first.bind rest).safe stance held))

theorem still (total : ∀ s, Safe env m s fun _ _ => True) (silent : ∀ {s a s'}, Runs m env s a s' → s.Quiet env s')
    (old : ∀ {s a s'}, Runs m env s a s' → gives a ⊆ needs) : Flows env roots chain needs m gives where
  safe stance held := (total _).runs.mono fun _ _ run =>
    ⟨(stance.quiet (silent run)).also fun _ h => held (old run h),fun _ => (silent run).cursor⟩

theorem quiet (total : ∀ s, Safe env m s fun _ _ => True) (silent : ∀ {s a s'}, Runs m env s a s' → s.Quiet env s') :
    Flows env roots chain needs m nothing := still total silent fun _ => nil_subset _

protected theorem pure {a : α} (old : gives a ⊆ needs) : Flows env roots chain needs (Pure.pure a) gives :=
  ⟨fun stance held => ⟨stance.also fun _ h => held (old h),fun _ => rfl⟩⟩

protected theorem throw {e : Error} (inProgram : e.inProgram = true) :
    Flows env roots chain needs (throwThe Error e : Lower α) gives := ⟨fun _ _ => inProgram⟩

protected theorem read : Flows env roots chain needs (MonadReader.read : Lower Environment) nothing :=
  ⟨fun stance _ => ⟨stance,fun _ => rfl⟩⟩

protected theorem lift {x : Except Error α} (fails : FailsInProgram x) :
    Flows env roots chain needs (liftM x : Lower α) nothing :=
  ⟨fun stance _ => safe_lift.mpr ⟨fun _ _ => ⟨stance,fun _ => rfl⟩,fails⟩⟩

protected theorem get : Flows env roots chain needs (MonadState.get : Lower State) nothing :=
  ⟨fun stance _ => ⟨stance,fun _ => rfl⟩⟩

protected theorem log {event : Event} : Flows env roots chain needs (log event) nothing :=
  ⟨fun stance _ => ⟨stance.logged event,fun _ => rfl⟩⟩

theorem edit {m : Build α} (step : ∀ {o : Outset env roots chain} {available ahead known supply s p c},
    Point o available ahead known True supply s p c → needs ⊆ available → m.Safe s.builder fun a b' => ∃ p', b' = s.builder.put p' ∧
      Standing env roots supply (s.put p') p' c chain o.levels (gives a ++ available) (o.waits.plus ahead) ∧
      Leads chain none supply s supply (s.put p') ∧ ∀ {x}, p'.IsOpen x ↔ p.IsOpen x) : Flows env roots chain needs (build m) gives where
  safe stance held := by
    obtain ⟨supply,p,c,point⟩ := stance.point
    refine safe_build.mpr ((step point held).mono ?_)
    rintro a _ ⟨p',rfl,after,leads,same⟩
    exact ⟨⟨supply,p',c,point.edit ⟨after,leads⟩ same⟩,fun _ => put_cursor⟩

section
variable {type : NativeType} {ptr : Register} {args : List Register}

theorem define {instr : Register → Instr} (plain : ∀ r, (instr r).isAlloc = false) (dest : ∀ r, (instr r).dest? = some r)
    (uses : ∀ r, (instr r).uses ⊆ needs) : Flows env roots chain needs (build (Build.define type instr)) fun r => [r] := by
  refine edit fun {o available ahead known supply s p c} point held => ?_
  have isOpen := point.live.mpr trivial
  refine (Build.safe_define point.standing.stands.procedure point.standing.stands.cursor isOpen type instr).mono ?_
  rintro _ _ ⟨rfl,rfl⟩
  obtain ⟨block,found,isOpen⟩ := isOpen
  obtain ⟨after,leads⟩ := point.standing.define type instr found isOpen (plain _) (dest _) fun _ h => held (uses _ h)
  exact ⟨_,rfl,after,leads,isOpen_modifyBlock fun _ => rfl⟩

theorem typedConst {value : Literal} : Flows env roots chain needs (build (Build.typedConst value type)) fun r => [r] :=
  define (fun _ => rfl) (fun _ => rfl) fun _ => nil_subset _

theorem const {value : Literal} : Flows env roots chain needs (build (Build.const value)) fun r => [r] := typedConst

theorem int {value : Int} : Flows env roots chain needs (build (Build.int value type)) fun r => [r] := by
  unfold Build.int
  split <;> first | exact const | exact ⟨fun _ _ => rfl⟩

theorem load (held : ptr ∈ needs) : Flows env roots chain needs (build (Build.load ptr type)) fun r => [r] :=
  define (fun _ => rfl) (fun _ => rfl) fun _ => by simpa [uses] using held

theorem element {indices : List Nat} (held : ptr ∈ needs) :
    Flows env roots chain needs (build (Build.element ptr indices type)) fun r => [r] :=
  define (fun _ => rfl) (fun _ => rfl) fun _ => by simpa [uses] using held

theorem compare {op : CompareOp} {left right : Register} (heldLeft : left ∈ needs) (heldRight : right ∈ needs) :
    Flows env roots chain needs (build (Build.compare op left right)) fun r => [r] :=
  define (fun _ => rfl) (fun _ => rfl) fun _ => by simp [uses,heldLeft,heldRight]

theorem cast {source : Register} {kind : CastKind} (held : source ∈ needs) :
    Flows env roots chain needs (build (Build.cast source kind type)) fun r => [r] :=
  define (fun _ => rfl) (fun _ => rfl) fun _ => by simpa [uses] using held

theorem ofBuilder {f : Builder → Build α} (rest : ∀ b, Flows env roots chain needs (build (f b)) gives) :
    Flows env roots chain needs (build (get >>= f)) gives :=
  ⟨fun stance held => safe_build_bind.mpr ((rest _).safe stance held)⟩

theorem binary {op : BinaryOp} {left right : Register} (heldLeft : left ∈ needs) (heldRight : right ∈ needs) :
    Flows env roots chain needs (build (Build.binary op left right)) fun r => [r] :=
  ofBuilder fun _ => define (fun _ => rfl) (fun _ => rfl) fun _ => by simp [uses,heldLeft,heldRight]

theorem unary {op : UnaryOp} {operand : Register} (held : operand ∈ needs) :
    Flows env roots chain needs (build (Build.unary op operand)) fun r => [r] :=
  ofBuilder fun _ => define (fun _ => rfl) (fun _ => rfl) fun _ => by simpa [uses] using held

theorem store {value : Register} (heldPtr : ptr ∈ needs) (heldValue : value ∈ needs) :
    Flows env roots chain needs (build (Build.store ptr value)) nothing := by
  refine edit fun {o available ahead known supply s p c} point held => ?_
  have isOpen := point.live.mpr trivial
  refine (Build.safe_append point.standing.stands.procedure point.standing.stands.cursor isOpen (.store ptr value)).mono ?_
  rintro _ _ rfl
  obtain ⟨block,found,isOpen⟩ := isOpen
  obtain ⟨after,leads⟩ := point.standing.append (i := .store ptr value) found isOpen rfl
    (by simp [uses,held heldPtr,held heldValue]) nofun
  exact ⟨_,rfl,after,leads,isOpen_modifyBlock fun _ => rfl⟩

theorem alloc : Flows env roots chain needs (build (Build.alloc type)) fun r => [r] := by
  refine edit fun {o available ahead known supply s p c} point _ => ?_
  refine (Build.safe_alloc point.standing.stands.procedure point.standing.sound.entry type).mono ?_
  rintro _ _ ⟨rfl,rfl⟩
  obtain ⟨after,leads⟩ := point.standing.allocate type
  exact ⟨_,rfl,after,leads,isOpen_modifyBlock fun _ => rfl⟩

theorem plainCall {site : CallSite} (uses : site.uses ⊆ needs) : Flows env roots chain needs (build (Build.call site)) Option.toList := by
  refine edit fun {o available ahead known supply s p c} point held => ?_
  have isOpen := point.live.mpr trivial
  refine (Build.safe_call point.standing.stands.procedure point.standing.stands.cursor isOpen site).mono ?_
  obtain ⟨block,found,isOpen⟩ := isOpen
  rintro _ _ (⟨rfl,-,rfl⟩ | ⟨rfl,-,rfl⟩)
  · obtain ⟨after,leads⟩ := point.standing.append (i := .call none site) found isOpen rfl (fun _ h => held (uses h)) nofun
    exact ⟨_,rfl,after,leads,isOpen_modifyBlock fun _ => rfl⟩
  · obtain ⟨after,leads⟩ := point.standing.define site.signature.result (fun r => .call (some r) site)
      found isOpen rfl rfl fun _ h => held (uses h)
    exact ⟨_,rfl,after,leads,isOpen_modifyBlock fun _ => rfl⟩

theorem globalOf {global : GlobalRole} : Flows env roots chain needs (globalOf global) nothing := by
  refine quiet (fun s => ?_) fun run => run.globalOf
  unfold Lower.globalOf
  simp only [safe_bind,safe_get]
  split
  · trivial
  · simp only [safe_bind,safe_read,safe_lift,safe_onModule,safe_modifySymbols,safe_pure]
    exact ⟨fun _ _ => trivial,failsInProgram_globalSpec global⟩

theorem materialize (completes : v.Completes) (held : v.registers ⊆ needs) :
    Flows env roots chain needs (materialize v) fun r => [r] := by
  unfold Lower.materialize
  cases form : v.form with
  | register register => exact .pure (by simpa [Value.registers,form] using held)
  | unit => exact globalOf.andThen fun _ => const
  | unreachable => simp [Value.Completes,Value.isUnreachable,form] at completes

end

end Flows

/-! ### Steps of construction -/

namespace Stance

section
variable (stance : Stance o available ahead known live s)
include stance

theorem labelledBlock (label : String) (role : Role) (held : counted ⊆ available) :
    Safe env (build (Build.labelledBlock label)) s fun b s' =>
      Stance o available (⟨b.plain,counted,role⟩ :: ahead) known live s' := by
  obtain ⟨supply,p,c,point⟩ := stance.point
  refine safe_build.mpr ((Build.safe_labelledBlock point.standing.stands.procedure label).mono ?_)
  rintro _ _ ⟨rfl,p',made,rfl⟩
  have gains := Gains.labelled point.standing.sound (fun r inside => point.standing.reaches.taken r (held inside)) made
  exact ⟨_,p',c,point.gain (k := p.nextBlock.plain) gains gains.known role⟩

theorem newContinuation (ty : Ty) (label : String) (role : Role) (held : counted ⊆ available) :
    Safe env (newContinuation ty label) s fun k s' => Stance o available (⟨k,counted,role⟩ :: ahead) known live s' := by
  obtain ⟨supply,p,c,point⟩ := stance.point
  refine safe_bind.mpr (safe_build.mpr ((Build.safe_labelledBlock point.standing.stands.procedure label).mono ?_))
  rintro _ _ ⟨rfl,p₁,made,rfl⟩
  have gains := Gains.labelled point.standing.sound (fun r inside => point.standing.reaches.taken r (held inside)) made
  obtain ⟨block,found,-⟩ := gains.blank
  split
  · rename_i valueless
    exact ⟨_,p₁,c,point.gain (k := ⟨p.nextBlock,none,ty⟩) gains
      ⟨gains.inner,gains.known.there,gains.counts,nofun,valueless.symm⟩ role⟩
  · rename_i valued
    refine safe_bind.mpr (safe_build.mpr ((Build.safe_phi (procedure?_put point.standing.stands.procedure) ⟨block,found⟩
      ty.storage).mono ?_))
    rintro _ _ ⟨rfl,rfl⟩
    have merges := (gains.allocRegister ty.storage).addPhi ty.storage (gains.sound.fresh ty.storage found)
    obtain ⟨block',found',-,-,-,phis,-⟩ := merges.blank
    have there := point.gain (k := ⟨p.nextBlock,some ⟨p₁.nextRegister⟩,ty⟩) merges
      ⟨merges.inner,⟨block',found',by rw [phis]; rfl⟩,merges.counts,fun {r} phi => by
        cases phi
        exact Table.get?_insert.trans (if_pos rfl),by simpa using valued⟩ role
    rw [put_put]
    exact ⟨_,_,c,there⟩

theorem newExit (label : String) (role : Role) (held : counted ⊆ available) : Safe env (Lower.newContinuation .unit label) s fun k s' =>
      k.phi = none ∧ Stance o available (⟨k,counted,role⟩ :: ahead) known live s' := by
  obtain ⟨supply,p,c,point⟩ := stance.point
  refine (stance.newContinuation .unit label role held).and_runs.mono fun k s' ⟨done,run⟩ => ⟨?_,done⟩
  obtain ⟨-,-,-,unit⟩ := run.newContinuation point.standing.stands
  obtain ⟨supply',p',c',point'⟩ := done.point
  have valueless := (point'.ahead _ (.head _)).valueless
  rw [unit] at valueless
  exact Option.isNone_iff_eq_none.mp valueless

end

section
variable (stance : Stance o available ahead known True s)
include stance

theorem flow {m : Lower α} {gives : α → List Register} (flows : Flows env roots chain needs m gives)
    (held : needs ⊆ available) : Safe env m s fun a s' => Stance o (gives a ++ available) ahead known True s' :=
  (flows.safe stance held).mono fun _ _ done => done.1

theorem terminate {t : Terminator} (joints : List Joint) (uses : t.uses ⊆ available) (dest : t.dest? = none)
    (successors : t.successors = joints.map fun j => j.1.block) (bare : ∀ j ∈ joints, j.1.phi = none ∧ j.2 ⊆ available)
    (offers : ∀ j ∈ joints, Offers o available ahead known True s j.1 j.2) :
    Safe env (build (Build.terminate t)) s fun _ s' => Stance o available ahead (joints ++ known) False s' := by
  obtain ⟨supply,p,c,point⟩ := stance.point
  refine safe_build.mpr ((Build.safe_terminate point.standing.stands.procedure point.standing.stands.cursor
    (point.live.mpr trivial) t).mono ?_)
  rintro _ _ rfl
  refine ⟨supply,_,c,point.close joints uses (by simp [dest]) successors fun j inside => ⟨(bare j inside).1,?_,offers j inside point⟩⟩
  exact fun _ h => mem_append_right _ ((bare j inside).2 h)

theorem ret {value : Option Register} (held : value.toList ⊆ available) :
    Safe env (build (Build.ret value)) s fun _ s' => Stance o available ahead known False s' :=
  stance.terminate [] held rfl rfl (forall_mem_nil _) (forall_mem_nil _)

theorem unreachable : Safe env (build Build.unreachable) s fun _ s' => Stance o available ahead known False s' :=
  stance.terminate [] (nil_subset _) rfl rfl (forall_mem_nil _) (forall_mem_nil _)

theorem branch (k : Continuation) (offers : Offers o available ahead known True s k counted) (bare : k.phi = none)
    (held : counted ⊆ available) :
    Safe env (build (Build.branch k.block)) s fun _ s' => Stance o available ahead ((k, counted) :: known) False s' :=
  stance.terminate [(k, counted)] (nil_subset _) rfl rfl (forall_mem_singleton.mpr ⟨bare,held⟩) (forall_mem_singleton.mpr offers)

theorem fork (onTrue onFalse : Continuation) {condition : Register} {counted' : List Register} (tested : condition ∈ available)
    (expectsTrue : Expects ahead known onTrue counted) (expectsFalse : Expects ahead known onFalse counted')
    (bareTrue : onTrue.phi = none) (bareFalse : onFalse.phi = none) (heldTrue : counted ⊆ available)
    (heldFalse : counted' ⊆ available) : Safe env (build (Build.condBranch condition onTrue.block onFalse.block)) s fun _ s' =>
      Stance o available ahead ((onTrue, counted) :: (onFalse, counted') :: known) False s' :=
  stance.terminate [(onTrue, counted),(onFalse, counted')] (by simpa [Terminator.uses] using tested) rfl rfl
    (forall_mem_cons.mpr ⟨⟨bareTrue,heldTrue⟩,forall_mem_singleton.mpr ⟨bareFalse,heldFalse⟩⟩)
    (forall_mem_cons.mpr ⟨expectsTrue.offers,forall_mem_singleton.mpr expectsFalse.offers⟩)

theorem lead (offers : Offers o available ahead known True s k counted) (held : counted ⊆ available)
    (inside : v.registers ⊆ available) (completes : v.Completes) :
    Safe env (jump k v) s fun _ s' => Stance o available ahead ((k, counted) :: known) False s' := by
  obtain ⟨supply,p,c,point⟩ := stance.point
  refine safe_bind.mpr (safe_isTerminated.mpr ?_)
  rw [if_neg fun ended => stance.isTerminated.mp ended trivial]
  have inserted : Safe env (build Build.insertionBlock) s fun source s' => source = c ∧ s' = s := by
    refine safe_build.mpr ?_
    unfold Build.insertionBlock
    simp only [Build.safe_bind,Build.safe_get,point.standing.stands.cursor,Build.safe_pure,and_self]
  refine inserted.bind ?_
  rintro _ _ ⟨rfl,rfl⟩
  split
  · rename_i bare
    exact stance.branch k offers bare held
  · rename_i dest phi
    -- The value may have to be made first; the target is found again from the point where it was.
    refine ((Flows.materialize completes inside).safe ⟨_,_,_,point.fresh⟩ fun _ h => h).and_runs.bind fun value s₁ done => ?_
    obtain ⟨⟨⟨supply₁,p₁,c₁,point₁⟩,-⟩,run⟩ := done
    obtain ⟨there,awaited⟩ := offers point
    obtain ⟨p',here,later⟩ := point₁.led.later point.standing.stands.procedure
    obtain rfl := point₁.standing.unique here
    obtain ⟨_,stands,scopes,-⟩ := run.bears point.standing.stands point.standing.named
    obtain rfl := Option.mem_unique point₁.standing.stands.cursor stands.cursor
    have there := there.later later
    obtain ⟨block,found,merges⟩ := there.there
    refine safe_build.mpr (Build.safe_bind.mpr ((Build.safe_terminate here stands.cursor (point₁.live.mpr trivial) _).mono ?_))
    rintro _ _ rfl
    have closed : (p'.close c₁ (.branch k.block)).graph.block? k.block = _ := (block?_close _).trans (congrArg _ found)
    have merged : dest ∈ block.phis.map Phi.dest := by rw [merges,phi]; exact mem_singleton_self dest
    refine (Build.safe_addIncoming (procedure?_put here) closed merged c₁ value).mono ?_
    rintro _ _ rfl
    rw [put_put]
    refine ⟨_,_,c₁,point.since (point₁.jump phi there ?_ held stance.covered)⟩
    rw [scopes]
    exact awaited.later later.grows fun _ h => h

theorem joins {u : Unit} (offers : Offers o available ahead known True s k counted) (run : Runs (jump k v) env s u s') :
    ∃ b, s.builder.cursor = some b ∧ s'.Joins b k v ∧ ∀ {x}, x ≠ b → s.Blank x → s'.Blank x := by
  obtain ⟨supply,p,c,point⟩ := stance.point
  obtain ⟨joins,blanks⟩ := run.joins point.standing.stands (fun closed => stance.isTerminated.mp closed trivial)
    point.standing.named (offers point).1
  exact ⟨c,point.standing.stands.cursor,joins,blanks⟩

end

section
variable (stance : Stance o available ahead known live s)
include stance

theorem goTo (offers : Offers o available ahead known live s k counted) (held : counted ⊆ available)
    (inside : v.registers ⊆ available) (completes : live → v.Completes) :
    Safe env (jump k v) s fun _ s' => Stance o available ahead known False s' := by
  by_cases alive : live
  · obtain rfl := eq_true alive
    exact (stance.lead offers held inside (completes trivial)).mono fun _ _ done => done.unlearn (subset_cons_self _ _)
  · unfold Lower.jump
    refine safe_bind.mpr (safe_isTerminated.mpr ?_)
    rw [if_pos (stance.isTerminated.mpr alive)]
    exact stance.dead alive not_false

theorem jump (expects : Expects ahead known k counted) (held : counted ⊆ available) (inside : v.registers ⊆ available)
    (completes : live → v.Completes) : Safe env (jump k v) s fun _ s' => Stance o available ahead known False s' :=
  stance.goTo expects.offers held inside completes

end

/-! ### Arrivals -/

section
variable (stance : Stance o available (⟨k,counted,role⟩ :: ahead) known live s)
include stance

theorem await (idle : role = .later) : Stance o available (⟨k,counted,.other⟩ :: ahead) known live s := by
  subst idle
  obtain ⟨supply,p,c,point⟩ := stance.point
  refine ⟨supply,p,c,{ point with standing := point.standing.await (Waits.within_other _ _), ahead := ?_ }⟩
  exact forall_mem_cons.mpr (forall_mem_cons.mp point.ahead)

theorem drop (idle : role = .later) : Stance o available ahead known live s := by
  subst idle
  obtain ⟨supply,p,c,point⟩ := stance.point
  exact ⟨supply,p,c,{ point with
    standing := point.standing
    footing := point.footing.mono (sublist_cons_self _ _)
    ahead := fun a inside => point.ahead a (.tail _ inside) }⟩

theorem away {live' : Prop} (after : Stance o available' ahead' known' live' (s.moveTo k.block)) : (s.moveTo k.block).Away o.kept := by
  obtain ⟨supply,p,c,point⟩ := stance.point
  obtain ⟨supply',p',c',point'⟩ := after.point
  intro q here isOpen
  obtain rfl := point.standing.unique here
  obtain rfl := point'.standing.unique here
  obtain rfl := Option.some.inj point'.standing.stands.cursor
  exact (point'.rooted isOpen).resolve_left (point.ahead _ (.head _)).inner.symm

section
variable (covered : Covered o.levels counted) (settled : role = .target → (k, counted) ∈ known)
  (left : ∀ p c, s.Stands p c → p.IsOpen c → c ≠ p.graph.entry ∧ LeftOpen env roots p c)
include covered settled left

theorem moveTo : Stance o (k.phi.toList ++ counted) ahead known True (s.moveTo k.block) := by
  obtain ⟨supply,p,c,point⟩ := stance.point
  have there : Known supply p k counted := point.ahead _ (.head _)
  obtain ⟨block,found,-⟩ := there.there
  obtain ⟨moved,leads⟩ := point.standing.move ⟨block,found⟩ (there.reaches point.standing.sound)
    (covered.mono (subset_append_right _ _)) fun isOpen => .inr (left p c point.standing.stands isOpen).2
  have after := arrive (a := ⟨k,counted,role⟩) moved (.inl rfl) fun target => (point.known _ (settled target)).2
  exact ⟨supply,p,k.block,point.moves after leads point.footing.moveTo (iff_true_intro (point.footing.opened _ (.head _))) rfl
    (.inr fun isOpen => (left p c point.standing.stands isOpen).1) (fun _ inside => .inl (.tail _ inside)) fun _ => .inl⟩

theorem switchTo : Safe env (build (Build.switchTo k.block)) s fun _ s' => Stance o (k.phi.toList ++ counted) ahead known True s' :=
  safe_build.mpr (stance.moveTo covered settled left)

end

theorem enterBlock (ended : ¬ live) (covered : Covered o.levels counted) : Safe env (enterBlock k.block) s fun entered s' =>
      ((k, counted) ∈ known → entered = true) ∧ Stance o (k.phi.toList ++ counted) ahead known (entered = true) s' := by
  obtain ⟨supply,p,c,point⟩ := stance.point
  have there : Known supply p k counted := point.ahead _ (.head _)
  obtain ⟨block,found,isOpen⟩ := point.footing.opened k.block (.head _)
  obtain ⟨moved,leads⟩ := point.standing.move ⟨block,found⟩ (there.reaches point.standing.sound)
    (covered.mono (subset_append_right _ _)) fun isOpen => .inr (stance.ended ended p c point.standing.stands isOpen).2
  have shut : ¬ p.IsOpen c := fun isOpen => ended (point.live.mp isOpen)
  have lookup : (s.moveTo k.block).builder.block? k.block = some block := by
    simp [block?,moved.stands.procedure,found]
  have notEnded : (s.moveTo k.block).builder.isTerminated = false := by simp [moved.isTerminated found,isOpen]
  have move : Safe env (build (Build.switchTo k.block)) s fun _ s' => s' = s.moveTo k.block := rfl
  refine move.bind ?_
  rintro _ _ rfl
  simp only [safe_bind,safe_get,lookup,Option.map_some,Option.getD_some,notEnded]
  cases edges : block.predecessors with
  | cons first rest =>
    have entered : Awaited p [] k.block := .inr ⟨block,found,.inl (by simp [edges])⟩
    have after := arrive (a := ⟨k,counted,role⟩) moved (.inl rfl) fun _ => entered
    exact ⟨fun _ => rfl,supply,p,k.block,point.moves after leads point.footing.moveTo (iff_of_true ⟨block,found,isOpen⟩ rfl) rfl
      (.inr fun isOpen => absurd isOpen shut) (fun _ inside => .inl (.tail _ inside)) fun _ => .inl⟩
  | nil =>
    refine safe_bind.mpr (safe_build.mpr ((Build.safe_terminate moved.stands.procedure rfl ⟨block,found,isOpen⟩ .unreachable).mono ?_))
    rintro _ _ rfl
    obtain ⟨closed,leads'⟩ := moved.close (t := .unreachable) found isOpen (nil_subset _) (by simp [Terminator.dest?]) (forall_mem_nil _)
      moved.reaches.taken moved.covered
    have closes : ∀ {b}, (p.close k.block .unreachable).IsOpen b ↔ b ≠ k.block ∧ p.IsOpen b := isOpen_close
    have settled : Awaited (p.close k.block .unreachable) [] k.block :=
      .inr ⟨_,(block?_close _).trans (congrArg _ found),.inr (by simp [Block.whenClosed])⟩
    have after := arrive (a := ⟨k,counted,role⟩) closed (.inl rfl) fun _ => settled
    refine ⟨fun reached => ?_,supply,_,k.block,point.moves after (leads.trans leads')
      (point.footing.moveTo.later (fun other isOpen => closes.mpr ⟨other,isOpen⟩) rfl)
      (iff_of_false (fun isOpen => (closes.mp isOpen).1 rfl) Bool.false_ne_true) rfl (.inr fun isOpen => absurd isOpen shut)
      (fun _ inside => .inl (.tail _ inside)) fun _ => .inl⟩
    rcases (point.known _ reached).2 with none | ⟨block',found',used⟩
    · cases none
    · obtain rfl := Option.mem_unique found found'
      exact (used.elim (fun some => some edges) fun some => some isOpen).elim

theorem resumeAt (ended : ¬ live) (covered : Covered o.levels counted) :
    Safe env (resumeAt k) s fun v s' => Stance o (v.registers ++ counted) ahead known v.Completes s' := by
  refine (stance.enterBlock ended covered).bind fun entered s' ⟨_,done⟩ => ?_
  cases entered with
  | true =>
    show Stance o (k.value.registers ++ counted) ahead known k.value.Completes s'
    rw [k.registers_value]
    exact done.congr (iff_of_true rfl k.isUnreachable_value)
  | false => exact (done.forget (subset_append_right _ _) covered).dead nofun nofun

theorem resumeAt_known (ended : ¬ live) (covered : Covered o.levels counted) (reached : (k, counted) ∈ known) :
    Safe env (Lower.resumeAt k) s fun _ s' => Stance o counted ahead known True s' := by
  refine (stance.enterBlock ended covered).bind fun entered s' ⟨enters,done⟩ => ?_
  obtain rfl := enters reached
  exact (done.forget (subset_append_right _ _) covered).congr (iff_of_true rfl trivial)

end

theorem enter (stance : Stance o available (⟨b.plain,counted,role⟩ :: ahead) known False s) (plain : role ≠ .target)
    (covered : Covered o.levels counted) : Safe env (build (Build.switchTo b)) s fun _ s' => Stance o counted ahead known True s' :=
  stance.switchTo covered (fun target => absurd target plain) (stance.ended not_false)

theorem divide {condition : Register} {taken next : BlockId} (tested : condition ∈ available) (held : counted ⊆ available)
    (covered : Covered o.levels counted)
    (stance : Stance o available (⟨next.plain,counted,.other⟩ :: ⟨taken.plain,counted,.other⟩ :: ahead) known True s) : Safe env (build (do
      Build.condBranch condition taken next
      Build.switchTo taken)) s fun _ s' => Stance o counted (⟨next.plain,counted,.other⟩ :: ahead) known True s' ∧ s'.Away o.kept := by
  refine safe_build_bind.mpr ((stance.fork taken.plain next.plain tested (.next (.first nofun)) (.first nofun) rfl rfl held
    held).mono fun _ s₁ forked => ?_)
  have aside := forked.reorder (.swap ..)
  have moved := aside.moveTo covered nofun (aside.ended not_false)
  exact safe_build.mpr ⟨moved.unlearn fun _ h => by simp [h],aside.away moved⟩

theorem atBlock {r r' : Recurse} {step : Recurse → Lower Unit} {Q : State → Prop}
    (stance : Stance o available (⟨k,counted,role⟩ :: ahead) known False s) (covered : Covered o.levels counted)
    (settled : role = .target → (k, counted) ∈ known)
    (inner : ∀ {o' : Outset env roots chain}, Stance o' (k.phi.toList ++ counted) ahead known True (s.moveTo k.block) →
      Agree env r r' step (s.moveTo k.block) fun _ s'' => Stance o' (k.phi.toList ++ counted) ahead known False s'' ∧ Q s'') :
    Agree env r r' (fun r => atBlock k.block (step r)) s fun _ s' => Stance o available ahead known False s' ∧
      ∃ s'', s.Ensues s'' ∧ s' = { s'' with builder := { s''.builder with cursor := s.builder.cursor } } ∧ Q s'' := by
  obtain ⟨supply,p,c,point⟩ := stance.point
  -- The code is seen from here, and not from where the stance was taken up, so that it leads on from this point.
  have fresh : Stance (o.anew supply s) available (⟨k,counted,role⟩ :: ahead) known False s := ⟨supply,p,c,point.fresh⟩
  refine .atBlock ((inner (fresh.moveTo covered settled (stance.ended not_false))).mono fun _ s' ⟨after,done⟩ => ?_)
  obtain ⟨supply',p',c',point'⟩ := after.point
  refine ⟨?_,s',point'.led.ensues,rfl,done⟩
  obtain ⟨back,leads⟩ := point.standing.goBack point'.led point'.standing point'.live.mp stance.covered
  obtain ⟨q,here,later⟩ := point'.led.later point.standing.stands.procedure
  obtain rfl := point'.standing.unique here
  have shut : ¬ q.IsOpen c := fun isOpen => point.live.mp (later.grows.isOpen point.standing.here isOpen)
  rw [point.standing.stands.cursor]
  exact ⟨supply',q,c,point.since (point'.moves back leads (point'.footing.goBack shut) (iff_false_intro shut) rfl
    (.inr fun isOpen => (point'.live.mp isOpen).elim) (fun _ => .inl) fun _ => .inl)⟩

end Stance

/-! ### Scopes -/

theorem Chain.exists_receiver {chain : Chain} {receiver : Option Value} (found : chain.receiver = .ok receiver) :
    ∃ scope function returnsVoid, scope ∈ chain ∧ scope.kind = .function function returnsVoid receiver := by
  induction chain with
  | nil => cases found
  | cons scope outer ih =>
    obtain ⟨id,kind⟩ := scope
    cases kind with
    | function function returnsVoid own =>
      obtain rfl : own = receiver := by simpa [Chain.receiver] using found
      exact ⟨_,function,returnsVoid,.head _,rfl⟩
    | _ =>
      obtain ⟨scope,function,returnsVoid,inside,same⟩ := ih found
      exact ⟨scope,function,returnsVoid,.tail _ inside,same⟩

theorem Standing.declare {id : Nat} {kind : ScopeKind} {slot : Slot} {v : VarId} {level : Level} {levels : List Level}
    {waits : Waits} (standing : Standing env roots supply s p c (⟨id,kind⟩ :: chain) (level :: levels) available waits)
    (held : slot.registers ⊆ available) (usable : slot.Usable) :
    let s' := { s with scopes := s.scopes.modify id fun scope => { scope with slots := scope.slots.insert v slot } }
    Standing env roots supply s' p c (⟨id,kind⟩ :: chain) (⟨level.anchor,slot.registers ++ level.base⟩ :: levels)
        available waits ∧
      Leads (⟨id,kind⟩ :: chain) (some id) supply s supply s' ∧ handlers s'.scopes = handlers s.scopes := by
  obtain ⟨⟨state,found,fits⟩,anchored,outerCovered,ordered,rest⟩ := standing.fits
  have same : ∀ i, i ≠ id → (s.scopes.modify id fun scope =>
      { scope with slots := scope.slots.insert v slot })[i]? = s.scopes[i]? :=
    fun i other => by simp [Array.getElem?_modify,other.symm]
  have here : (s.scopes.modify id fun scope => { scope with slots := scope.slots.insert v slot })[id]? =
      some { state with slots := state.slots.insert v slot } := by
    simp [Array.getElem?_modify,found]
  have outer : ∀ scope ∈ chain, (s.scopes.modify id fun scope =>
      { scope with slots := scope.slots.insert v slot })[scope.id]? = s.scopes[scope.id]? :=
    fun scope inside => same _ (Nat.ne_of_lt (ordered scope inside))
  refine ⟨{ standing with
    stands := ⟨standing.stands.procedure,standing.stands.cursor⟩
    fits := ⟨⟨_,here,{ fits with slots := ?_ }⟩,fun _ h => mem_append_right _ (anchored h),outerCovered,ordered,
      rest.later (.refl _ _) (fun _ h => h) outer⟩
    covered := ?_
    accounted := ?_
    named := standing.named.keep standing.named.numbered (.refl _) rfl },?_,handlers_modify_same found rfl⟩
  · intro x other entered
    exact Table.of_insert entered ⟨subset_append_left _ _,usable⟩ fun before =>
      (fits.slots before).imp_left fun inside _ h => mem_append_right _ (inside h)
  · intro found there
    cases there
    exact append_subset.mpr ⟨held,standing.covered level rfl⟩
  · have handlers : Chain.handlers (s.scopes.modify id fun scope =>
        { scope with slots := scope.slots.insert v slot }) (⟨id,kind⟩ :: chain) =
        Chain.handlers s.scopes (⟨id,kind⟩ :: chain) := by
      rw [handlers_cons,handlers_cons,handlers_congr outer,handlerBlock,handlerBlock,here,found]
      rfl
    rw [handlers]
    exact standing.accounted
  · exact {
      current := rfl
      later := fun there => ⟨_,there,.refl _ _⟩
      others := fun _ => rfl
      names := .refl _
      functions := fun h => h
      size := Array.size_modify
      frame := fun {i state} there outside => by
        rw [same i (outside ⟨id,kind⟩ (.head _)).symm]
        exact there
      slots := fun {i state'} there other => ⟨state',by
        rw [same i fun own => other (congrArg some own.symm)]
        exact there,rfl⟩ }

theorem Waits.aside_plus (w : Waits) (blocks : List BlockId) (ahead : List Ahead) :
    ((w.plus ahead).aside blocks).Within ((w.aside blocks).plus ahead) ∧
      ((w.aside blocks).plus ahead).Within ((w.plus ahead).aside blocks) := by
  have targets : ∀ x, x ∈ ((w.plus ahead).aside blocks).targets ↔ x ∈ ((w.aside blocks).plus ahead).targets := by
    intro x
    rw [mem_plus_targets]
    exact mem_plus_targets
  have all : ∀ x, x ∈ ((w.plus ahead).aside blocks).all ↔ x ∈ ((w.aside blocks).plus ahead).all := by
    intro x
    simp only [mem_all_aside,mem_plus]
    exact or_left_comm
  exact ⟨⟨fun x => (targets x).mp,fun x => (all x).mp⟩,⟨fun x => (targets x).mpr,fun x => (all x).mpr⟩⟩

/-- The outset of a scope that is opened at a point. -/
def Outset.within (o : Outset env roots chain) (kind : ScopeKind) (anchor base : List Register) (supply : Supply) (s : State) :
    Outset env roots (⟨s.scopes.size,kind⟩ :: chain) where
  levels := ⟨anchor,base⟩ :: o.levels
  owner := some s.scopes.size
  waits := o.waits
  kept := o.kept
  supply := supply
  state := { s with scopes := s.scopes.push .empty }

/-- Some point inside a scope, where the registers in `kept` have values; the scope may need others besides. -/
def InScope (o : Outset env roots chain) (kind : ScopeKind) (anchor : List Register) (supply₀ : Supply) (s₀ : State)
    (kept : List Register) (ahead : List Ahead) (known : List Joint) (live : Prop) (s : State) : Prop :=
  ∃ base available, kept ⊆ available ∧ Stance (o.within kind anchor base supply₀ s₀) available ahead known live s

/-- The handler that a scope has come to need is entered behind it. -/
def Ahead.handlers (handler : Option Continuation) (counted : List Register) : List Ahead :=
  handler.toList.map fun h => ⟨h,counted,.other⟩

namespace Stance
variable {r r' : Recurse} {kind : ScopeKind} {var : VarId} {anchor base : List Register} {supply₀ : Supply} {s₀ : State}

theorem openScope (point : Point o available ahead known live supply s p c)
    (fits : KindFits roots supply p (o.waits.plus ahead).targets ⟨available,available⟩ kind) :
    Stance (o.within kind available available supply s) available ahead known live { s with scopes := s.scopes.push .empty } :=
  ⟨supply,p,c,{ point with
    standing := point.standing.openScope kind fits
    led := .refl _ _ _ _
    footing := point.footing.push
    tidy := point.tidy.push }⟩

/-- A scope of some kind may be opened here. -/
def Admits (o : Outset env roots chain) (available : List Register) (ahead : List Ahead) (known : List Joint) (live : Prop)
    (s : State) (kind : ScopeKind) : Prop :=
  ∀ {supply p c}, Point o available ahead known live supply s p c →
    KindFits roots supply p (o.waits.plus ahead).targets ⟨available,available⟩ kind

/-- Code in a scope that is opened here comes to an end as stated. -/
def Inside (o : Outset env roots chain) (available : List Register) (ahead : List Ahead) (known : List Joint) (live : Prop)
    (s : State) (kind : ScopeKind) (r r' : Recurse) (step : Recurse → Chain → Lower α) (Q : Supply → α → State → Prop) : Prop :=
  ∀ {supply}, Stance (o.within kind available available supply s) available ahead known live
      { s with scopes := s.scopes.push .empty } →
    Agree env r r' (fun r => step r (⟨s.scopes.size,kind⟩ :: chain)) { s with scopes := s.scopes.push .empty } (Q supply)

section
variable {step : Recurse → Chain → Lower α} {gives : α → List Register} {live' : α → Prop} {ends : Prop}
  (stance : Stance o available ahead known live s) (plain : kind.catches = false) (fits : Admits o available ahead known live s kind)
include stance plain fits

theorem withScope (inner : Inside o available ahead known live s kind r r' step fun supply a s' =>
      InScope o kind available supply s (gives a ++ available) ahead' known' (live' a) s') :
    Agree env r r' (fun r => withScope kind chain (step r)) s fun a s' =>
      Stance o (gives a ++ available) ahead' known' (live' a) s' := by
  obtain ⟨supply,p,c,point⟩ := stance.point
  refine .withScope ((inner (openScope point (fits point))).mono ?_)
  rintro a s' ⟨base,available',kept,supply',p',c',point'⟩
  have outside : Stance o available' ahead' known' (live' a) { s' with scopes := s'.scopes.take s.scopes.size } :=
    ⟨supply',p',c',{ point' with
      standing := point'.standing.closePlain plain
      led := point.led.trans ((point'.led.closeScope (.inr rfl)).widen fun _ h => h)
      footing := point'.footing.take _
      tidy := point.tidy.close point'.tidy point'.standing.fits.2.2.2.1 }⟩
  exact outside.forget kept (stance.covered.mono (subset_append_right _ _))

theorem throughScope (inner : Inside o available ahead known live s kind r r' step fun supply _ s' =>
      InScope o kind available supply s available ahead' known' ends s') :
    Agree env r r' (fun r => Lower.withScope kind chain (step r)) s fun _ s' => Stance o available ahead' known' ends s' := by
  have inside : Agree env r r' (fun r => Lower.withScope kind chain (step r)) s fun u s' =>
      Stance o (nothing u ++ available) ahead' known' ends s' := stance.withScope plain fits inner
  exact inside

end

/-- The path ends in a catching scope; the handler that the scope has come to need is entered afterwards. -/
theorem withHandler {step : Recurse → Chain → Lower Unit} (stance : Stance o available ahead known live s)
    (fits : Admits o available ahead known live s kind) (inner : Inside o available ahead known live s kind r r' step fun supply _ s' =>
      Stance (o.within kind available available supply s) available ahead known False s') :
    Agree env r r' (fun r => withHandler kind chain (step r)) s fun handler s' =>
      Stance o available (Ahead.handlers handler available ++ ahead) known False s' := by
  obtain ⟨supply,p,c,point⟩ := stance.point
  refine .withScope ((inner (openScope point (fits point))).bind fun _ s' inside => Safe.agree ?_)
  obtain ⟨supply',p',c',point'⟩ := inside
  obtain ⟨⟨state,found,scopeFits⟩,-⟩ := point'.standing.fits
  have given : ((s'.scopes[s.scopes.size]?).getD .empty).handler = state.handler := by rw [found]; rfl
  have closed := point'.standing.closeScope
  have same : handlerBlock s'.scopes s.scopes.size = state.handler.map Continuation.block := by simp [handlerBlock,found]
  have footing := point'.footing.closeScope found
  simp only [safe_bind,safe_scopeState,safe_pure,given]
  refine ⟨supply',p',c',{ point' with
    standing := ?_
    led := point.led.trans ((point'.led.closeScope (.inr rfl)).widen fun _ h => h)
    footing := ?_
    ahead := ?_
    tidy := point.tidy.close point'.tidy point'.standing.fits.2.2.2.1 }⟩
  · rw [same] at closed
    cases handler : state.handler <;> rw [handler] at closed <;> exact closed
  · rw [ScopeState.handlerBlock] at footing
    cases handler : state.handler <;> rw [handler] at footing <;> exact footing
  · intro a inside
    rcases mem_append.mp inside with inside | inside
    · obtain ⟨h,there,rfl⟩ := mem_map.mp inside
      exact (scopeFits.handler (Option.mem_toList.mp there)).1
    · exact point'.ahead a inside

theorem declareVariable {slot : Slot} (stance : Stance (o.within kind anchor base supply₀ s₀) available ahead known live s)
    (owns : variableOwner? (⟨s₀.scopes.size,kind⟩ :: chain) = some s₀.scopes.size) (held : slot.registers ⊆ available)
    (usable : slot.Usable) : Safe env (declareVariable (⟨s₀.scopes.size,kind⟩ :: chain) var slot) s fun _ s' =>
      Stance (o.within kind anchor (slot.registers ++ base) supply₀ s₀) available ahead known live s' := by
  unfold Lower.declareVariable
  rw [owns]
  refine safe_bind.mpr (safe_log.mpr ?_)
  have logged := stance.logged (.declaredVariable var s₀.scopes.size)
  obtain ⟨supply,p,c,point⟩ := logged.point
  obtain ⟨after,leads,same⟩ := point.standing.declare (v := var) held usable
  refine safe_modifyScope.mpr ⟨supply,p,c,after,point.led.trans leads,?_,point.live,point.ahead,point.known,?_,point.rooted⟩
  · exact point.footing.reorder (.of_eq (congrArg (_ ++ ·) same.symm))
  · refine point.tidy.later leads.ensues fun _ _ => ?_
    rw [State.cleanups_modify (f := fun scope => { scope with slots := scope.slots.insert var slot }) fun _ => rfl]

theorem slot? (stance : Stance o available ahead known live s) : Safe env (slot? chain var) s fun found s' =>
    s' = s ∧ ∀ slot ∈ found, slot.registers ⊆ available ∧ slot.Usable := by
  obtain ⟨supply,p,c,point⟩ := stance.point
  refine ⟨rfl,fun slot inside => ?_⟩
  obtain ⟨scope,member,there⟩ := exists_of_findSome?_eq_some inside
  obtain ⟨level,zipped⟩ := point.standing.fits.exists_level member
  obtain ⟨state,present,fits⟩ := point.standing.fits.scope_at zipped
  rw [present,Option.bind_some] at there
  obtain ⟨-,based⟩ := point.standing.fits.base_subset zipped point.standing.covered
  exact ⟨fun _ h => based ((fits.slots there).1 h),(fits.slots there).2⟩

theorem receiver (stance : Stance o available ahead known live s) : Safe env (liftM chain.receiver : Lower (Option Value)) s fun found s' =>
      s' = s ∧ ∀ v ∈ found, v.registers ⊆ available ∧ v.Completes := by
  obtain ⟨supply,p,c,point⟩ := stance.point
  refine safe_lift.mpr ⟨fun found given => ⟨rfl,fun v same => ?_⟩,failsInProgram_receiver⟩
  obtain ⟨scope,function,returnsVoid,inside,kind⟩ := exists_receiver given
  obtain ⟨level,zipped⟩ := point.standing.fits.exists_level inside
  obtain ⟨state,-,fits⟩ := point.standing.fits.scope_at zipped
  obtain ⟨anchored,based⟩ := point.standing.fits.base_subset zipped point.standing.covered
  have kindFits := fits.kind
  rw [kind] at kindFits
  obtain ⟨registers,completes⟩ := kindFits v same
  exact ⟨fun _ h => based (anchored (registers h)),completes⟩

end Stance

end

end BlockLowering
