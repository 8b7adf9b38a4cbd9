import Mathlib.Data.List.Nodup
import BlockLowering.Proofs.LandingPads
import BlockLowering.Proofs.Outputs
/-!
Exception edges of every module that lowering returns. An invoke goes on in a block of its own and
unwinds to a landing pad, which nothing but such invokes leads to, which takes the exception over as a
whole and goes on at a handler; and there are no other landing pads.
-/
namespace BlockLowering
open Lower Procedure
variable {unit : SourceUnit} {settings : Settings} {decls : Declarations} {units : List SourceUnit} {m : Module}

/-- Every function of the output is landed. -/
def State.Landed (s : State) : Prop :=
  ∀ id p, s.builder.output.procedures.get? id = some p → p.Landed s.builder.output []

section
variable {env : Environment} {s s' : State} {p : Procedure} {id : ProcId} {u : Unit}

theorem State.Landed.touched (landed : s.Landed) (named : s.Named env) (touches : State.Touches env id s s')
    (changed : ∀ p, s'.builder.output.procedures.get? id = some p → p.Landed s'.builder.output []) : s'.Landed := by
  intro x q found
  by_cases here : x = id
  · exact changed q (here ▸ found)
  · exact (landed x q ((touches.others here).symm.trans found)).keep (touches.keeps named)

theorem State.Landed.lowered {s₁ s₂ : State} {step : Lower Unit} (landed : s.Landed) (named : s.Named env)
    (entered : State.Entered env s id p s₁) (good : p.Landed s₁.builder.output []) {needs : List Finding} {gives : Unit → List Finding}
    (composed : Composed needs step gives) (plain : ∀ f ∈ needs, ∀ p, f.Clear [] p) (run : Runs step env s₁ () s₂) {scopes : Array ScopeState}
    (finished : Runs (finishFunction id) env { s₂ with scopes } u s') : s'.Landed := by
  have kept : (landing []).Kept ⟨env,id,s⟩ s₁ p p.graph.entry := .start entered named good trivial trivial
  obtain ⟨⟨p₂,c₂,kept₂⟩,-⟩ := composed.clears.lead ⟨p,_,kept⟩ (fun f inside => kept.knows.mpr (plain f inside p)) run
  obtain ⟨touches,keeps,p',found,outcome⟩ := Regime.Kept.finish kept₂ finished
  refine landed.touched named touches fun q there => ?_
  obtain rfl := Option.mem_unique found there
  rcases outcome with rfl | rfl
  · exact Landed.keep kept₂.good keeps
  · exact (Landed.keep kept₂.good keeps).pruned

theorem Lower.Runs.lowerFunction_landed {body : FunctionBody} (run : Runs (Lower.lowerFunction body) env s u s')
    (named : s.Named env) (landed : s.Landed) : s'.Landed := by
  obtain ⟨function,proc,p,s₁,s₂,-,-,found,entered,lowered,finished⟩ := run.lowerFunction_parts
  have good := ((landed proc p found).keep (entered.touches.keeps named)).relocated body.body.location
  exact landed.lowered named entered good .body (fun _ inside _ => List.mem_singleton.mp inside ▸ trivial) lowered finished

theorem Lower.Runs.lowerInitializerFunction_landed {pending : List (FieldId × Expr)}
    (run : Runs (Lower.lowerInitializerFunction unit pending) env s id s') (named : s.Named env) (landed : s.Landed) : s'.Landed := by
  obtain ⟨s₁,s₂,-,entered,lowered,finished⟩ := run.lowerInitializerFunction_parts named
  exact landed.lowered named entered (landed_new _ _ _ _) .initializers (fun _ inside _ => List.mem_singleton.mp inside ▸ trivial)
    lowered finished

theorem Lower.Runs.lowerInitializerLink_landed {initializer : ProcId}
    (run : Runs (Lower.lowerInitializerLink unit initializer) env s id s') (named : s.Named env) (landed : s.Landed) : s'.Landed := by
  obtain ⟨node,s₁,s₂,scopes,-,entered,linked,finished⟩ := run.lowerInitializerLink_parts named
  refine landed.lowered named entered (landed_new _ _ _ _) .linkNode (fun f inside _ => ?_) linked finished
  rcases List.mem_cons.mp inside with rfl | inside
  · trivial
  · exact List.mem_singleton.mp inside ▸ trivial

theorem landed_invariant (env : Environment) (units : List SourceUnit) : Invariant env units fun _ _ s => s.Landed where
  quiet settled landed quiet := by
    intro id p found
    rw [quiet.procedures] at found
    exact (landed id p found).keep (quiet.keeps settled.named)
  declared settled landed run := by
    obtain ⟨proc,function,-,-,there,others,-,keeps,-⟩ := run.declareFunction settled.named
    intro id p found
    exact Table.of_others found others there (landed_new _ _ _ _) fun before => (landed id p before).keep keeps
  body _ _ settled landed run := run.lowerFunction_landed settled.named landed
  initializers _ _ settled landed run := run.lowerInitializerFunction_landed settled.named landed
  link settled landed run := run.lowerInitializerLink_landed settled.named landed

theorem lowerModule_landed
    (lowered : (lowerModule settings decls units).result = .ok m) (found : m.procedures.get? id = some p) : p.Landed m [] := by
  have empty : (State.start settings .empty).Landed := by
    intro id p found
    cases found
  obtain ⟨s,rfl,-,landed⟩ := (landed_invariant _ units).lowerProgram empty lowered
  exact landed id p found

/-- An invoke goes on in a block of its own, without phis, and unwinds to another block, without phis and
    with a landing pad as its first instruction, to which nothing but invokes unwind. A landing pad stands
    only at the head of such a block, which takes the exception out of the record, ends the native catch
    and goes on at a handler. -/
theorem lowerModule_exception_edges {settings : Settings} {decls : Declarations} {units : List SourceUnit} {m : Module}
    (lowered : (lowerModule settings decls units).result = .ok m) (found : m.procedures.get? id = some p) :
    (∀ b k dest site normal unwind, p.graph.block? b = some k → k.terminator = some (.invoke dest site normal unwind) →
      normal ≠ unwind ∧ (∃ kn, p.graph.block? normal = some kn ∧ kn.predecessors = [b] ∧ kn.phis = [] ∧
        ∀ a ka, p.graph.block? a = some ka → normal ∈ ka.successors → a = b) ∧
      ∃ ku, p.graph.block? unwind = some ku ∧ ku.phis = [] ∧ (∃ record rest, ku.instrs = .landingPad record :: rest) ∧
        (∀ a ∈ ku.predecessors, p.UnwindsTo a unwind) ∧
        ∀ a ka, p.graph.block? a = some ka → unwind ∈ ka.successors → p.UnwindsTo a unwind) ∧
    ∀ b k index record, p.graph.block? b = some k → k.instrs[index]? = some (.landingPad record) →
      index = 0 ∧ (∃ a, p.UnwindsTo a b) ∧ ∃ exception begin finish handler, k.instrs = [.landingPad record,
          .call (some exception) ⟨.direct begin,[record],SupportRoutine.beginCatch.header.signature,.irrelevant⟩,
          .call none ⟨.direct finish,[],SupportRoutine.endCatch.header.signature,.irrelevant⟩] ∧
        m.symbol? begin = some "rt_begin_catch" ∧ m.symbol? finish = some "rt_end_catch" ∧
        k.terminator = some (.branch handler) ∧ ∃ kh, p.graph.block? handler = some kh := by
  have landed := lowerModule_landed lowered found
  obtain ⟨supply,sound⟩ := lowerModule_sound lowered found
  refine ⟨fun b k dest site normal unwind there ended => ?_,fun b k index record there at_index => ?_⟩
  · have invoked := ended_iff.mpr ⟨k,there,ended⟩
    obtain ⟨reserved,lands⟩ := landed.ends invoked
    obtain ⟨-,kn,thereNormal,recorded⟩ := sound.wired.targets there (t := normal) (by simp [Block.successors,ended,Terminator.successors])
    obtain ⟨-,ku,thereUnwind,-⟩ := sound.wired.targets there (t := unwind) (by simp [Block.successors,ended,Terminator.successors])
    have single : ∀ a ka, p.graph.block? a = some ka → normal ∈ ka.successors → a = b := fun a ka foundA edge =>
      landed.single ⟨dest,site,unwind,invoked⟩ (Graph.successors_of_block foundA ▸ edge)
    have sources : ∀ a ka, p.graph.block? a = some ka → unwind ∈ ka.successors → p.UnwindsTo a unwind := fun a ka foundA edge =>
      landed.sources lands (Graph.successors_of_block foundA ▸ edge)
    have other : normal ≠ unwind := by
      rintro rfl
      obtain ⟨record,inside⟩ := lands.exists_record
      exact reserved.plain record inside
    have bare := reserved.bare
    rw [content_eq thereNormal] at bare
    rw [LandsAt,content_eq thereUnwind] at lands
    refine ⟨other,⟨kn,thereNormal,?_,bare,single⟩,ku,thereUnwind,lands.1,?_,?_,sources⟩
    · -- The list of predecessors has no repetitions, and every member has an edge.
      have only : ∀ a ∈ kn.predecessors, a = b := by
        intro a inside
        obtain ⟨ka,foundA,edge⟩ := sound.wired.sources thereNormal inside
        exact single a ka foundA edge
      by_contra different
      rcases ((sound.wired.distinct thereNormal).ne_singleton_iff b).mp different with empty | ⟨a,inside,another⟩
      · simp [empty] at recorded
      · exact another (only a inside)
    · obtain ⟨-,record,exception,begin,finish,handler,code,-⟩ := lands
      exact ⟨record,_,code⟩
    · intro a inside
      obtain ⟨ka,foundA,edge⟩ := sound.wired.sources thereUnwind inside
      exact sources a ka foundA edge
  · have inside := List.mem_of_getElem? at_index
    have content := content_eq there
    obtain ⟨⟨-,record',exception,begin,finish,handler,code,ended,begins,finishes⟩,unwound⟩ :=
      (landed.pads (show _ ∈ (p.content b).instrs by rwa [content])).resolve_left (by simp)
    rw [content] at code ended
    dsimp only at code ended
    have first : index = 0 ∧ record = record' := by
      rw [code] at at_index
      rcases index with _ | _ | _ | _
      · exact ⟨rfl,(Instr.landingPad.inj (Option.some.inj at_index)).symm⟩
      · cases at_index
      · cases at_index
      · cases at_index
    obtain ⟨rfl,rfl⟩ := first
    have target : handler ∈ k.successors := by simp [Block.successors,ended,Terminator.successors]
    obtain ⟨-,kh,handled,-⟩ := sound.wired.targets there target
    exact ⟨rfl,unwound,exception,begin,finish,handler,code,begins,finishes,ended,kh,handled⟩

theorem guardedUnit_exception_edges : ∃ m p b k dest site normal unwind kn ku record rest,
    (lowerModule .development guardedDecls [guardedUnit]).result = .ok m ∧ m.procedures.get? ⟨0⟩ = some p ∧
    p.graph.block? b = some k ∧ k.terminator = some (.invoke dest site normal unwind) ∧ normal ≠ unwind ∧
    p.graph.block? normal = some kn ∧ kn.predecessors = [b] ∧ kn.phis = [] ∧
    p.graph.block? unwind = some ku ∧ ku.phis = [] ∧ ku.instrs = .landingPad record :: rest := by
  obtain ⟨m,p,lowered,found,passed⟩ := exists_output .development guardedDecls [guardedUnit] ⟨0⟩
    (fun p => p.graph.blocks.entries.any fun e => e.2.terminator.any Terminator.isInvoke) (by decide +kernel)
  obtain ⟨⟨b,k⟩,entry,ending⟩ := List.any_eq_true.mp passed
  obtain ⟨t,ended,invokes⟩ := (Option.any_eq_true _ _).mp ending
  cases t with
  | invoke dest site normal unwind =>
    have there : p.graph.block? b = some k := Table.mem_entries_iff.mp entry
    obtain ⟨other,⟨kn,thereNormal,alone,bare,-⟩,ku,thereUnwind,bare',⟨record,rest,code⟩,-⟩ :=
      (lowerModule_exception_edges lowered found).1 b k dest site normal unwind there ended
    exact ⟨m,p,b,k,dest,site,normal,unwind,kn,ku,record,rest,lowered,found,there,ended,other,thereNormal,
      alone,bare,thereUnwind,bare',code⟩
  | _ => cases invokes

end

end BlockLowering
