import BlockLowering.Proofs.Runs
/-!
Disciplines of a lowering run. A discipline is an invariant of states together with facts about them. A
step keeps it if the invariant survives and no fact is lost, and a step may need some facts and give
others. Sequences of steps are taken together here once and for all, so that a discipline has only the
single steps left to look at.
-/
namespace BlockLowering
open Lower List

/-- An invariant of states, and facts that a state may bear out. -/
structure Discipline (Fact : Type) where
  holds : State → Prop
  knows : State → Fact → Prop

/-- A step that starts where some facts are known keeps the discipline and gives further facts. -/
structure Discipline.Keeps {Fact α : Type} (d : Discipline Fact) (env : Environment) (needs : List Fact)
    (step : Lower α) (gives : α → List Fact) : Prop where
  lead : ∀ {s a s'}, d.holds s → (∀ f ∈ needs, d.knows s f) → Runs step env s a s' →
    d.holds s' ∧ (∀ f, d.knows s f → d.knows s' f) ∧ ∀ f ∈ gives a, d.knows s' f

def noFacts {Fact α : Type} (_ : α) : List Fact := []

namespace Discipline.Keeps
variable {Fact α β : Type} {d : Discipline Fact} {env : Environment} {needs needs' : List Fact} {step : Lower α} {gives : α → List Fact}
variable {f : α → Lower β} {gives' : β → List Fact} {e : Error}

theorem learn {P : Prop} (sure : ∀ {s}, d.holds s → (∀ f ∈ needs, d.knows s f) → P)
    (keeps : P → d.Keeps env needs step gives) : d.Keeps env needs step gives where
  lead holds known run := (keeps (sure holds known)).lead holds known run

theorem infer {f : Fact} (sure : ∀ {s}, d.holds s → (∀ g ∈ needs, d.knows s g) → d.knows s f)
    (keeps : d.Keeps env (f :: needs) step gives) : d.Keeps env needs step gives where
  lead holds known run := keeps.lead holds (by
    intro g inside
    rcases mem_cons.mp inside with rfl | old
    · exact sure holds known
    · exact known g old) run

theorem mono {gives' : α → List Fact} (keeps : d.Keeps env needs step gives) (more : needs ⊆ needs')
    (fewer : ∀ a, gives' a ⊆ gives a ++ needs') : d.Keeps env needs' step gives' where
  lead {s a s'} holds known run := by
    obtain ⟨holds',kept,given⟩ := keeps.lead holds (fun f inside => known f (more inside)) run
    refine ⟨holds',kept,fun f inside => ?_⟩
    rcases mem_append.mp (fewer a inside) with new | old
    · exact given f new
    · exact kept f (known f old)

theorem widen (keeps : d.Keeps env needs step gives) (more : needs ⊆ needs') : d.Keeps env needs' step gives :=
  keeps.mono more fun _ => subset_append_left _ _

theorem forget (keeps : d.Keeps env needs step gives) : d.Keeps env needs step noFacts :=
  keeps.mono (Subset.refl _) fun _ => nil_subset _

theorem bindKnown {P : α → Prop} (first : d.Keeps env needs step gives)
    (sure : ∀ {s a s'}, d.holds s → (∀ f ∈ needs, d.knows s f) → Runs step env s a s' → P a)
    (second : ∀ a, P a → d.Keeps env (gives a ++ needs) (f a) gives') : d.Keeps env needs (step >>= f) gives' where
  lead {s b s'} holds known run := by
    obtain ⟨a,s₁,run₁,run₂⟩ := runs_bind.mp run
    obtain ⟨holds₁,kept₁,given₁⟩ := first.lead holds known run₁
    obtain ⟨holds₂,kept₂,given₂⟩ := (second a (sure holds known run₁)).lead holds₁ (fun f inside => by
      rcases mem_append.mp inside with new | old
      · exact given₁ f new
      · exact kept₁ f (known f old)) run₂
    exact ⟨holds₂,fun f there => kept₂ f (kept₁ f there),given₂⟩

theorem bind (first : d.Keeps env needs step gives)
    (second : ∀ a, d.Keeps env (gives a ++ needs) (f a) gives') : d.Keeps env needs (step >>= f) gives' :=
  first.bindKnown (fun _ _ _ => trivial) fun a _ => second a

theorem andThen (first : d.Keeps env needs step noFacts)
    (second : ∀ a, d.Keeps env needs (f a) gives') : d.Keeps env needs (step >>= f) gives' :=
  first.bind second

theorem buildBind {m : Build α} {f : α → Build β} (first : d.Keeps env needs (build m) gives)
    (second : ∀ a, d.Keeps env (gives a ++ needs) (build (f a)) gives') : d.Keeps env needs (build (m >>= f)) gives' where
  lead holds known run :=
    (first.bind second).lead holds known (runs_bind.mpr (runs_build_bind.mp run))

theorem buildThen {m : Build α} {f : α → Build β} (first : d.Keeps env needs (build m) noFacts)
    (second : ∀ a, d.Keeps env needs (build (f a)) gives') : d.Keeps env needs (build (m >>= f)) gives' :=
  first.buildBind second

theorem still (same : ∀ {s a s'}, Runs step env s a s' → s' = s) (old : ∀ {s a s'}, Runs step env s a s' →
    gives a ⊆ needs) : d.Keeps env needs step gives where
  lead holds known run := by
    have inside := old run
    obtain rfl := same run
    exact ⟨holds,fun _ there => there,fun f given => known f (inside given)⟩

theorem pure {a : α} (old : gives a ⊆ needs) : d.Keeps env needs (pure a) gives where
  lead holds known run := by
    obtain ⟨rfl,rfl⟩ := runs_pure.mp run
    exact ⟨holds,fun _ there => there,fun f given => known f (old given)⟩

theorem done {a : α} : d.Keeps env needs (Pure.pure a) noFacts := pure (nil_subset _)

theorem get {f : State → Lower β} (second : ∀ s, d.Keeps env needs (f s) gives') : d.Keeps env needs (get >>= f) gives' where
  lead holds known run := by
    obtain ⟨_,_,here,rest⟩ := runs_bind.mp run
    obtain ⟨rfl,rfl⟩ := runs_get.mp here
    exact (second _).lead holds known rest

theorem buildGet {f : Builder → Build β} (second : ∀ b, d.Keeps env needs (build (f b)) gives') :
    d.Keeps env needs (build (MonadState.get >>= f)) gives' where
  lead holds known run := by
    obtain ⟨_,_,here,rest⟩ := runs_build_bind.mp run
    obtain ⟨rfl,rfl⟩ := runs_build_get.mp here
    exact (second _).lead holds known rest

theorem read : d.Keeps env needs (read : Lower Environment) noFacts :=
  still (fun run => (runs_read.mp run).2) fun _ => nil_subset _

theorem readThen {f : Environment → Lower β} (second : d.Keeps env needs (f env) gives') :
    d.Keeps env needs (MonadReader.read >>= f) gives' :=
  read.bindKnown (fun _ _ run => (runs_read.mp run).1) fun _ same => same ▸ second

theorem lift {x : Except Error α} : d.Keeps env needs (liftM x : Lower α) noFacts :=
  still (fun run => (runs_lift.mp run).2) fun _ => nil_subset _

theorem liftThen {x : Except Error α}
    (second : ∀ a, x = .ok a → d.Keeps env needs (f a) gives') : d.Keeps env needs (liftM x >>= f) gives' :=
  lift.bindKnown (fun _ _ run => (runs_lift.mp run).1) second

theorem isTerminated : d.Keeps env needs isTerminated noFacts :=
  still (fun run => (runs_isTerminated.mp run).2) fun _ => nil_subset _

theorem throw : d.Keeps env needs (throwThe Error e : Lower α) gives :=
  ⟨fun _ _ run => absurd run runs_throw⟩

theorem throwBind {f : β → Lower α} : d.Keeps env needs ((throwThe Error e : Lower β) >>= f) gives :=
  ⟨fun _ _ run => by
    obtain ⟨_,_,failed,-⟩ := runs_bind.mp run
    exact absurd failed runs_throw⟩

theorem buildThrow : d.Keeps env needs (build (MonadExcept.throw e) : Lower α) gives :=
  ⟨fun _ _ run => absurd run runs_build_throw⟩

theorem breach {e : Breach} : d.Keeps env needs (breach e : Lower α) gives :=
  ⟨fun _ _ run => absurd run runs_breach⟩

end Discipline.Keeps

end BlockLowering
