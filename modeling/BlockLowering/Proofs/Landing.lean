import BlockLowering.Proofs.Context
import BlockLowering.Proofs.Reachability
/-!
Exception edges of functions. Two kinds of blocks are reserved: the block in which an invoke goes on, and
the landing pad in which its exceptions arrive. A function is landed if no other edge leads to either of
them and every landing pad is complete. The operations of construction keep a function landed as long as
they draw edges to other blocks only; a landing pad and its first invoke take several operations, during
which the pad is pending.
-/
namespace BlockLowering
open List Option Block SupportRoutine Instr Nat
variable {m : Module}

/-- The code of a landing pad: the record comes first, the exception is taken out of it, and the native
    catch is over. -/
def landingCode (record exception : Register) (begin finish : ProcId) : List Instr :=
  [.landingPad record,
    .call (some exception) ⟨.direct begin,[record],beginCatch.header.signature,.irrelevant⟩,
    .call none ⟨.direct finish,[],endCatch.header.signature,.irrelevant⟩]

/-- What exception edges depend on in a block. -/
structure Block.Content where
  phis : List Phi
  instrs : List Instr
  terminator : Option Terminator

namespace Block.Content
variable {k : Content}

/-- A block that takes over exceptions and goes on at a handler. -/
def Lands (m : Module) (k : Content) : Prop :=
  k.phis = [] ∧ ∃ record exception begin finish handler,
    k.instrs = landingCode record exception begin finish ∧ k.terminator = some (.branch handler) ∧
      m.symbol? begin = some beginCatch.symbol ∧ m.symbol? finish = some endCatch.symbol

theorem Lands.keep {m' : Module} (lands : k.Lands m) (keeps : m.Keeps m') : k.Lands m' := by
  obtain ⟨bare,record,exception,begin,finish,handler,code,ended,begins,finishes⟩ := lands
  exact ⟨bare,record,exception,begin,finish,handler,code,ended,keeps.symbols begins,keeps.symbols finishes⟩

theorem Lands.not_open (lands : k.Lands m) : k.terminator ≠ none := by
  obtain ⟨-,_,_,_,_,handler,-,ended,-⟩ := lands
  simp [ended]

theorem Lands.exists_record (lands : k.Lands m) : ∃ record, landingPad record ∈ k.instrs := by
  obtain ⟨-,record,_,_,_,_,code,-⟩ := lands
  exact ⟨record,by simp [code,landingCode]⟩

end Block.Content

namespace Procedure

/-- What stands in a block, which is nothing where no block has been made. -/
def content (p : Procedure) (b : BlockId) : Content :=
  ((p.graph.block? b).map fun k => ⟨k.phis,k.instrs,k.terminator⟩).getD ⟨[],[],none⟩

/-- A block ends with an invoke that goes on in another block. -/
def ContinuesAt (p : Procedure) (a b : BlockId) : Prop :=
  ∃ dest site unwind, (p.content a).terminator = some (.invoke dest site b unwind)

/-- A block ends with an invoke that unwinds to another block. -/
def UnwindsTo (p : Procedure) (a b : BlockId) : Prop :=
  ∃ k dest site normal, p.graph.block? a = some k ∧ k.terminator = some (.invoke dest site normal b)

def LandsAt (m : Module) (p : Procedure) (b : BlockId) : Prop := (p.content b).Lands m

/-- A block in which no exceptions arrive. -/
structure Ordinary (pending : List BlockId) (p : Procedure) (b : BlockId) : Prop where
  outside : b ∉ pending
  bound : b.index < p.graph.nextBlock
  plain : ∀ record, landingPad record ∉ (p.content b).instrs

/-- A block that is neither reserved nor pending. -/
structure Clear (pending : List BlockId) (p : Procedure) (b : BlockId) : Prop extends p.Ordinary pending b where
  unreserved : ∀ a, ¬ p.ContinuesAt a b

/-- A block in which one invoke goes on. -/
structure Reserved (pending : List BlockId) (p : Procedure) (a b : BlockId) : Prop extends p.Ordinary pending b where
  bare : (p.content b).phis = []
  single : ∀ {x}, p.ContinuesAt x b → x = a

/-- The end of a block leads to the blocks that are reserved for it or to clear ones. -/
def Allows (m : Module) (pending : List BlockId) (p : Procedure) (a : BlockId) : Terminator → Prop
  | .invoke _ _ normal unwind => p.Reserved pending a normal ∧ p.LandsAt m unwind
  | t => ∀ b ∈ t.successors, p.Clear pending b

/-- A new end leads to clear blocks, or an invoke goes on in a block that has not been there before. -/
def Draws (m : Module) (pending pending' : List BlockId) (p p' : Procedure) (a : BlockId) (t : Terminator) : Prop :=
  t.isInvoke = false ∧ (∀ b ∈ t.successors, p.Clear pending b) ∨ ∃ dest site normal unwind, t = .invoke dest site normal unwind ∧
    p.graph.nextBlock ≤ normal.index ∧ p'.Reserved pending' a normal ∧ p'.LandsAt m unwind

/-- Invokes are the only way into the blocks that are reserved for them, and landing pads are complete,
    apart from those that are pending. -/
structure Landed (m : Module) (pending : List BlockId) (p : Procedure) : Prop where
  unused : ∀ {b}, p.graph.nextBlock ≤ b.index → p.graph.block? b = none
  entry : p.graph.entry.index < p.graph.nextBlock ∧ ∀ record, landingPad record ∉ (p.content p.graph.entry).instrs
  ends : ∀ {a t}, (p.content a).terminator = some t → p.Allows m pending a t
  pads : ∀ {b record}, landingPad record ∈ (p.content b).instrs → b ∈ pending ∨ p.LandsAt m b ∧ ∃ a, p.UnwindsTo a b
  waiting : ∀ {b}, b ∈ pending → b.index < p.graph.nextBlock ∧ b ≠ p.graph.entry

/-- A change of a function that keeps it landed. Other landing pads may be pending afterwards. -/
structure Evolves (m : Module) (pending pending' : List BlockId) (p p' : Procedure) : Prop where
  landed : p'.Landed m pending'
  clear : ∀ {b}, p.Clear pending b → p'.Clear pending' b
  lands : ∀ {b}, p.LandsAt m b → p'.LandsAt m b
  settled : ∀ {b}, b ∈ pending → b ∈ pending' ∨ p'.LandsAt m b
  name : p'.name = p.name

section
variable {m m' : Module} {pending pending' pending'' : List BlockId} {p p' : Procedure} {a b c x : BlockId} {k : Block} {t : Terminator}

theorem content_eq (found : p.graph.block? b = some k) : p.content b = ⟨k.phis,k.instrs,k.terminator⟩ := by
  rw [content,found,map_some,getD_some]

theorem content_of_absent (absent : p.graph.block? b = none) : p.content b = ⟨[],[],none⟩ := by
  rw [content,absent,map_none,getD_none]

theorem ended_iff : (p.content a).terminator = some t ↔ ∃ k, p.graph.block? a = some k ∧ k.terminator = some t := by
  cases found : p.graph.block? a with
  | none => simp [content_of_absent found]
  | some k => simp [content_eq found]

theorem mem_successors : b ∈ p.graph.successors a ↔ ∃ t, (p.content a).terminator = some t ∧ b ∈ t.successors := by
  unfold Graph.successors
  cases found : p.graph.block? a with
  | none => simp [content_of_absent found]
  | some k => cases ended : k.terminator <;> simp [content_eq found,Block.successors,ended]

theorem unwindsTo_iff : p.UnwindsTo a b ↔ ∃ dest site normal, (p.content a).terminator = some (.invoke dest site normal b) := by
  simp only [ended_iff,UnwindsTo]
  constructor
  · rintro ⟨k,dest,site,normal,ended⟩
    exact ⟨dest,site,normal,k,ended⟩
  · rintro ⟨dest,site,normal,k,ended⟩
    exact ⟨k,dest,site,normal,ended⟩

theorem Clear.not_pad (clear : p.Clear pending b) : ¬ p.LandsAt m b := by
  intro lands
  obtain ⟨record,inside⟩ := lands.exists_record
  exact clear.plain record inside

theorem Evolves.trans {p'' : Procedure} (first : Evolves m pending pending' p p')
    (second : Evolves m pending' pending'' p' p'') : Evolves m pending pending'' p p'' where
  landed := second.landed
  clear clear := second.clear (first.clear clear)
  lands lands := second.lands (first.lands lands)
  settled pend := by
    rcases first.settled pend with still | lands
    · exact second.settled still
    · exact .inr (second.lands lands)
  name := second.name.trans first.name

namespace Landed
variable (landed : p.Landed m pending)
include landed

theorem keep (keeps : m.Keeps m') : p.Landed m' pending where
  unused := landed.unused
  entry := landed.entry
  ends {a t} ended := by
    have allows := landed.ends ended
    cases t with
    | invoke => exact ⟨allows.1,allows.2.keep keeps⟩
    | _ => exact allows
  pads inside := (landed.pads inside).imp_right (And.imp_left (·.keep keeps))
  waiting := landed.waiting

theorem absent : p.graph.block? p.nextBlock = none := landed.unused (Nat.le_refl _)

theorem nextBlock_ne (found : p.graph.block? b = some k) : b ≠ p.nextBlock := by
  rintro rfl
  simp [landed.absent] at found

/-- Nothing but unwinding leads to a landing pad. -/
theorem sources (lands : p.LandsAt m b) (target : b ∈ p.graph.successors a) : p.UnwindsTo a b := by
  obtain ⟨t,ended,inside⟩ := mem_successors.mp target
  obtain ⟨record,pad⟩ := lands.exists_record
  have allows := landed.ends ended
  cases t with
  | invoke dest site normal unwind =>
    obtain rfl | rfl : b = normal ∨ b = unwind := by simpa [Terminator.successors] using inside
    · exact absurd pad (allows.1.plain record)
    · exact unwindsTo_iff.mpr ⟨dest,site,normal,ended⟩
  | _ => exact absurd pad ((allows b inside).plain record)

/-- Nothing but its invoke leads to a block in which an invoke goes on. -/
theorem single (continues : p.ContinuesAt a b) (target : b ∈ p.graph.successors x) : x = a := by
  obtain ⟨t,ended,inside⟩ := mem_successors.mp target
  obtain ⟨dest,site,unwind,invoked⟩ := continues
  have reserved := (landed.ends invoked).1
  have allows := landed.ends ended
  cases t with
  | invoke dest' site' normal unwind' =>
    obtain rfl | rfl : b = normal ∨ b = unwind' := by simpa [Terminator.successors] using inside
    · exact reserved.single ⟨dest',site',unwind',ended⟩
    · obtain ⟨record,pad⟩ := allows.2.exists_record
      exact absurd pad (reserved.plain record)
  | _ => exact absurd ⟨dest,site,unwind,invoked⟩ ((allows b inside).unreserved a)

/-- A change of one block keeps a function landed if an old end stays, a new one leads to clear blocks or into a block that has just been
    made, and a complete landing pad and the phis of a reserved block are left alone. -/
theorem evolve (others : ∀ {x}, x ≠ c → p'.content x = p.content x) (entry : p'.graph.entry = p.graph.entry)
    (next : p.graph.nextBlock ≤ p'.graph.nextBlock) (unused : ∀ {b}, p'.graph.nextBlock ≤ b.index → p'.graph.block? b = none)
    (waits : ∀ {b}, b ∈ pending' → b ∈ pending ∨ p.graph.nextBlock = b.index ∧ b.index < p'.graph.nextBlock)
    (settled : ∀ {b}, b ∈ pending → b ∈ pending' ∨ p'.LandsAt m b ∧ ∃ a, p'.UnwindsTo a b)
    (records : ∀ {record}, landingPad record ∈ (p'.content c).instrs → c ∈ pending ∨ landingPad record ∈ (p.content c).instrs)
    (kept : ∀ {t}, (p.content c).terminator = some t → (p'.content c).terminator = some t) (lands : p.LandsAt m c → p'.LandsAt m c)
    (bare : ¬ p.Clear pending c → (p'.content c).phis = (p.content c).phis)
    (ends : ∀ {t}, (p'.content c).terminator = some t → (p.content c).terminator = some t ∨ Draws m pending pending' p p' c t)
    (name : p'.name = p.name) : Evolves m pending pending' p p' := by
  have ends : ∀ {x t}, (p'.content x).terminator = some t → (p.content x).terminator = some t ∨ Draws m pending pending' p p' x t := by
    intro x t ended
    by_cases here : x = c
    · subst here
      exact ends ended
    · exact .inl (others here ▸ ended)
  have continues : ∀ {a b}, p'.ContinuesAt a b → p.ContinuesAt a b ∨ p.graph.nextBlock ≤ b.index := by
    rintro a b ⟨dest,site,unwind,ended⟩
    rcases ends ended with old | ⟨plain,-⟩ | ⟨_,_,_,_,same,fresh,-⟩
    · exact .inl ⟨dest,site,unwind,old⟩
    · cases plain
    · obtain ⟨-,-,rfl,-⟩ := Terminator.invoke.inj same
      exact .inr fresh
  have records : ∀ {x record}, landingPad record ∈ (p'.content x).instrs → x ∈ pending ∨ landingPad record ∈ (p.content x).instrs := by
    intro x record inside
    by_cases here : x = c
    · subst here
      exact records inside
    · exact .inr (others here ▸ inside)
  have ordinary : ∀ {b}, p.Ordinary pending b → p'.Ordinary pending' b := by
    intro b before
    refine ⟨fun pend => ?_,Nat.lt_of_lt_of_le before.bound next,fun record inside => ?_⟩
    · rcases waits pend with old | ⟨same,-⟩
      · exact before.outside old
      · exact (Nat.ne_of_lt before.bound) same.symm
    · exact (records inside).elim before.outside (before.plain record)
  have clear : ∀ {b}, p.Clear pending b → p'.Clear pending' b := fun before =>
    ⟨ordinary before.toOrdinary,fun a there => (continues there).elim (before.unreserved a) (Nat.not_le_of_lt before.bound)⟩
  have lands : ∀ {x}, p.LandsAt m x → p'.LandsAt m x := by
    intro x before
    by_cases here : x = c
    · subst here
      exact lands before
    · rwa [LandsAt,others here]
  have unwinding : ∀ {a b}, p.UnwindsTo a b → p'.UnwindsTo a b := by
    intro a b unwinds
    obtain ⟨dest,site,normal,ended⟩ := unwindsTo_iff.mp unwinds
    refine unwindsTo_iff.mpr ⟨dest,site,normal,?_⟩
    by_cases here : a = c
    · subst here
      exact kept ended
    · rwa [others here]
  refine ⟨⟨unused,?_,fun {x t} ended => ?_,fun {b record} inside => ?_,fun {b} pend => ?_⟩,clear,lands,
    fun pend => (settled pend).imp_right And.left,name⟩
  · rw [entry]
    exact ⟨Nat.lt_of_lt_of_le landed.entry.1 next,fun record inside =>
      (records inside).elim (fun pend => (landed.waiting pend).2 rfl) (landed.entry.2 record)⟩
  · rcases ends ended with old | ⟨plain,aims⟩ | ⟨_,_,_,_,rfl,-,allowed⟩
    · have allows := landed.ends old
      cases t with
      | invoke dest site normal unwind =>
        obtain ⟨reserved,complete⟩ := allows
        refine ⟨⟨ordinary reserved.toOrdinary,?_,fun there => (continues there).elim reserved.single fun fresh =>
          absurd reserved.bound (Nat.not_lt.mpr fresh)⟩,lands complete⟩
        by_cases here : normal = c
        · subst here
          exact (bare fun clear => clear.unreserved x ⟨dest,site,unwind,old⟩).trans reserved.bare
        · rw [others here,reserved.bare]
      | _ => exact fun b inside => clear (allows b inside)
    · cases t with
      | invoke => cases plain
      | _ => exact fun b inside => clear (aims b inside)
    · exact allowed
  · rcases (records inside).elim .inl landed.pads with pend | ⟨complete,a,unwinds⟩
    · exact settled pend
    · exact .inr ⟨lands complete,a,unwinding unwinds⟩
  · rcases waits pend with old | ⟨same,bound⟩
    · obtain ⟨bound,inner⟩ := landed.waiting old
      exact ⟨Nat.lt_of_lt_of_le bound next,entry ▸ inner⟩
    · refine ⟨bound,fun isEntry => Nat.ne_of_lt landed.entry.1 ?_⟩
      rw [same,isEntry,entry]

end Landed

/-- Nothing has changed but the number of blocks. -/
structure Extends (p p' : Procedure) : Prop where
  content : ∀ x, p'.content x = p.content x
  entry : p'.graph.entry = p.graph.entry
  next : p.graph.nextBlock ≤ p'.graph.nextBlock
  unused : ∀ {b}, p'.graph.nextBlock ≤ b.index → p'.graph.block? b = none
  name : p'.name = p.name

namespace Landed
variable (landed : p.Landed m pending)
include landed

theorem extends_refl : p.Extends p := ⟨fun _ => rfl,rfl,Nat.le_refl _,landed.unused,rfl⟩

theorem extend (extends' : p.Extends p') (fewer : pending ⊆ pending')
    (waits : ∀ {b}, b ∈ pending' → b ∈ pending ∨ p.graph.nextBlock = b.index ∧ b.index < p'.graph.nextBlock) :
    Evolves m pending pending' p p' := by
  have same := extends'.content
  exact landed.evolve (c := p.graph.entry) (fun _ => same _) extends'.entry extends'.next extends'.unused waits (fun pend => .inl (fewer pend))
    (fun inside => .inr (same _ ▸ inside)) (fun ended => same _ ▸ ended) (fun lands => by rwa [LandsAt,same]) (fun _ => by rw [same])
    (fun ended => .inl (same _ ▸ ended)) extends'.name

/-! ### Operations on one function -/

theorem allocRegister (type : NativeType) : Evolves m pending pending p (p.allocRegister type).2 :=
  landed.extend ⟨fun _ => rfl,rfl,Nat.le_refl _,landed.unused,rfl⟩ (fun _ pend => pend) .inl

theorem relocated (location : Location) : Landed m pending { p with location } :=
  have extends' : p.Extends { p with location } := ⟨fun _ => rfl,rfl,Nat.le_refl _,landed.unused,rfl⟩
  (landed.extend extends' (fun _ pend => pend) .inl).landed

theorem modify {f : Block → Block} (ended : ∀ k, (f k).terminator = k.terminator) (phis : (∀ k, (f k).phis = k.phis) ∨ p.Clear pending c)
    (records : ∀ {k record}, p.graph.block? c = some k → landingPad record ∈ (f k).instrs → c ∈ pending ∨ landingPad record ∈ k.instrs)
    (complete : ∀ {k}, p.graph.block? c = some k → p.LandsAt m c → (f k).instrs = k.instrs) : Evolves m pending pending p (p.modifyBlock c f) := by
  have others : ∀ {x}, x ≠ c → (p.modifyBlock c f).content x = p.content x := fun other => by simp [content,block?_modifyBlock,other]
  have unused : ∀ {b}, p.graph.nextBlock ≤ b.index → (p.modifyBlock c f).graph.block? b = none := fun beyond => by
    rw [block?_modifyBlock,landed.unused beyond,map_none]
  cases found : p.graph.block? c with
  | none =>
    refine landed.extend ⟨fun x => ?_,rfl,Nat.le_refl _,unused,rfl⟩ (fun _ pend => pend) .inl
    by_cases here : x = c
    · simp [here,content,block?_modifyBlock,found]
    · exact others here
  | some k =>
    have old := content_eq found
    have new : (p.modifyBlock c f).content c = ⟨(f k).phis,(f k).instrs,k.terminator⟩ := by
      rw [content_eq (show _ = some (f k) by rw [block?_modifyBlock,found,map_some,if_pos rfl]),ended]
    refine landed.evolve others rfl (Nat.le_refl _) unused .inl .inl (fun inside => ?_) (fun before => ?_) (fun lands => ?_)
      (fun reserved => ?_) (fun after => .inl ?_) rfl
    · rw [new] at inside
      exact old ▸ records found inside
    · rw [new,← before,old]
    · rw [LandsAt,new,complete found lands,phis.resolve_right fun clear => clear.not_pad lands,← old]
      exact lands
    · rw [new,old,phis.resolve_right reserved]
    · rw [old,← after,new]

theorem append {i : Instr} (found : p.graph.block? c = some k) (isOpen : k.terminator = none)
    (plain : (∀ record, i ≠ .landingPad record) ∨ c ∈ pending) : Evolves m pending pending p (p.modifyBlock c fun k => k.append i) := by
  refine landed.modify (fun _ => rfl) (.inl fun _ => rfl) (fun _ inside => ?_) fun _ lands => absurd (by rw [content_eq found,isOpen]) lands.not_open
  rcases mem_append.mp inside with before | new
  · exact .inr before
  · exact plain.elim (fun plain => absurd (mem_singleton.mp new).symm (plain _)) .inl

theorem addSlot {dest : Register} {type : NativeType} :
    Evolves m pending pending p (p.modifyBlock p.graph.entry fun k => k.addAlloc (.alloc dest type)) := by
  refine landed.modify (fun _ => rfl) (.inl fun _ => rfl) (fun {k record} _ inside => .inr ?_) fun _ lands => ?_
  · rw [← takeWhile_append_dropWhile (p := isAlloc) (l := k.instrs),mem_append]
    simpa [addAlloc] using inside
  · obtain ⟨record,inside⟩ := lands.exists_record
    exact absurd inside (landed.entry.2 record)

theorem rephi (phis : Block → List Phi) (clear : p.Clear pending b) :
    Evolves m pending pending p (p.modifyBlock b fun k => { k with phis := phis k }) :=
  landed.modify (fun _ => rfl) (.inr clear) (fun _ => .inr) fun _ _ => rfl

end Landed

/-! ### Ends of blocks -/

section
variable (landed : p.Landed m pending) (extends' : p.Extends p') (found : p'.graph.block? c = some k) (isOpen : k.terminator = none)
include extends' found

theorem Extends.content_close (t : Terminator) (x : BlockId) :
    (p'.close c t).content x = if x = c then { p.content c with terminator := some t } else p.content x := by
  rw [← extends'.content,← extends'.content]
  unfold Procedure.content
  rw [block?_close,Option.map_map]
  by_cases here : x = c
  · simp [here,found,whenClosed]
  · simp [here,whenClosed,Function.comp_def]

include landed isOpen

theorem Extends.close (waits : pending' ⊆ pending)
    (settled : ∀ {b}, b ∈ pending → b ∈ pending' ∨ (p'.close c t).LandsAt m b ∧ ∃ a, (p'.close c t).UnwindsTo a b)
    (draws : Draws m pending pending' p (p'.close c t) c t) :
    Evolves m pending pending' p (p'.close c t) := by
  have new := (extends'.content_close found t c).trans (if_pos rfl)
  have old : (p.content c).terminator = none := by rw [← extends'.content,content_eq found,isOpen]
  refine landed.evolve (fun {x} other => (extends'.content_close found t x).trans (if_neg other)) (Graph.entry_close.trans extends'.entry)
    (Nat.le_trans extends'.next (Nat.le_of_eq Graph.nextBlock_close.symm)) (fun beyond => ?_) (fun pend => .inl (waits pend)) settled
    (fun inside => .inr ?_) (fun ended => ?_) (fun lands => absurd old lands.not_open) (fun _ => by rw [new]) (fun ended => .inr ?_) extends'.name
  · rw [block?_close,extends'.unused (Graph.nextBlock_close ▸ beyond),map_none]
  · rwa [new] at inside
  · simp [old] at ended
  · rw [new] at ended
    exact some.inj ended ▸ draws

omit extends' found in
theorem Landed.close (found : p.graph.block? c = some k) (plain : t.isInvoke = false) (clear : ∀ x ∈ t.successors, p.Clear pending x) :
    Evolves m pending pending p (p.close c t) :=
  landed.extends_refl.close landed found isOpen (fun _ pend => pend) .inl (.inl ⟨plain,clear⟩)

end

/-! ### New blocks -/

/-- A block is new, and nothing stands in it. -/
structure Makes (p p' : Procedure) : Prop where
  entry : p'.graph.entry = p.graph.entry
  next : p'.graph.nextBlock = p.graph.nextBlock + 1
  name : p'.name = p.name
  others : ∀ {x}, x ≠ p.nextBlock → p'.graph.block? x = p.graph.block? x
  blank : ∃ k, p'.graph.block? p.nextBlock = some k ∧ k.phis = [] ∧ k.terminator = none ∧ k.instrs = []

theorem makes_createBlock : p.Makes p.createBlock where
  entry := rfl
  next := rfl
  name := rfl
  others other := by rw [block?_createBlock,if_neg other]
  blank := ⟨_,by rw [block?_createBlock,if_pos rfl],rfl,rfl,rfl⟩

theorem Makes.relabel (makes : p.Makes p') (label : Option String) : p.Makes (p'.modifyBlock p.nextBlock fun k => { k with label }) where
  entry := makes.entry
  next := makes.next
  name := makes.name
  others other := by simp [block?_modifyBlock,makes.others other,other]
  blank := by
    obtain ⟨k,found,blank⟩ := makes.blank
    exact ⟨{ k with label },by rw [block?_modifyBlock,found,map_some,if_pos rfl],blank⟩

section
variable (landed : p.Landed m pending) (makes : p.Makes p')
include landed makes

theorem Makes.extends : p.Extends p' where
  content x := by
    by_cases here : x = p.nextBlock
    · obtain ⟨k,found,bare,isOpen,code⟩ := makes.blank
      rw [here,content_of_absent landed.absent,content_eq found,bare,isOpen,code]
    · rw [content,makes.others here,content]
  entry := makes.entry
  next := by simp [makes.next]
  unused {b} beyond := by
    have bound : p.graph.nextBlock + 1 ≤ b.index := makes.next ▸ beyond
    refine (makes.others ?_).trans (landed.unused (Nat.le_of_succ_le bound))
    rintro rfl
    exact Nat.lt_irrefl _ bound
  name := makes.name

theorem Landed.make (fewer : pending ⊆ pending') (more : pending' ⊆ p.nextBlock :: pending) : Evolves m pending pending' p p' := by
  refine landed.extend (makes.extends landed) fewer fun pend => ?_
  rcases mem_cons.mp (more pend) with rfl | old
  · exact .inr ⟨rfl,by simp [nextBlock,makes.next]⟩
  · exact .inl old

theorem Landed.clear_nextBlock : p'.Clear pending p.nextBlock := by
  have content := (makes.extends landed).content
  refine ⟨⟨fun pend => Nat.lt_irrefl _ (landed.waiting pend).1,by simp [nextBlock,makes.next],?_⟩,?_⟩
  · simp [content,content_of_absent landed.absent]
  · rintro a ⟨dest,site,unwind,ended⟩
    rw [content] at ended
    exact Nat.lt_irrefl _ (landed.ends ended).1.bound

/-- An invoke goes on in a new block and unwinds to a complete landing pad, which may have been pending so far. -/
theorem Landed.invoke {pad : BlockId} {dest : Option Register} {site : CallSite} (only : pending ⊆ [pad]) (lands : p.LandsAt m pad)
    (found : p'.graph.block? c = some k) (isOpen : k.terminator = none) :
    Evolves m pending [] p (p'.close c (.invoke dest site p.nextBlock pad)) := by
  have extends' := makes.extends landed
  have content := extends'.content_close found (.invoke dest site p.nextBlock pad)
  have arrives : (p'.close c (.invoke dest site p.nextBlock pad)).LandsAt m pad := by
    rw [LandsAt,content,if_neg]
    · exact lands
    · rintro rfl
      exact lands.not_open (by rw [← extends'.content,content_eq found,isOpen])
  have blank : ((p'.close c (.invoke dest site p.nextBlock pad)).content p.nextBlock).phis = [] ∧
      ((p'.close c (.invoke dest site p.nextBlock pad)).content p.nextBlock).instrs = [] := by
    have absent := content_of_absent landed.absent
    rw [content]
    split
    · simp [← ‹p.nextBlock = c›,absent]
    · simp [absent]
  refine extends'.close landed found isOpen (by simp) (fun pend => .inr ?_) (.inr ⟨dest,site,_,pad,rfl,Nat.le_refl _,
    ⟨⟨by simp,?_,by simp [blank.2]⟩,blank.1,?_⟩,arrives⟩)
  · obtain rfl := mem_singleton.mp (only pend)
    exact ⟨arrives,c,unwindsTo_iff.mpr ⟨dest,site,_,by rw [content,if_pos rfl]⟩⟩
  · rw [show (p'.close c _).graph.nextBlock = _ from Graph.nextBlock_close,makes.next]
    exact Nat.lt_succ_self _
  · rintro x ⟨dest',site',unwind,ended⟩
    rw [content] at ended
    split at ended
    · assumption
    · exact absurd (landed.ends ended).1.bound (Nat.lt_irrefl _)

end

/-! ### Functions as a whole -/

theorem landed_new (m : Module) (id : ProcId) (name : String) (header : Header) : (Procedure.new id name header).Landed m [] := by
  have blank : ∀ b, (Procedure.new id name header).content b = ⟨[],[],none⟩ := by
    intro b
    cases found : (Procedure.new id name header).graph.block? b with
    | none => exact content_of_absent found
    | some k =>
      obtain ⟨-,rfl⟩ := block?_new found
      exact content_eq found
  refine ⟨fun {b} beyond => ?_,⟨Nat.zero_lt_one,by simp [blank]⟩,fun ended => ?_,fun inside => ?_,by simp⟩
  · cases found : (Procedure.new id name header).graph.block? b with
    | none => rfl
    | some k =>
      obtain ⟨rfl,-⟩ := block?_new found
      cases beyond
  · simp [blank] at ended
  · simp [blank] at inside

theorem Landed.pruned (landed : p.Landed m []) : p.pruned.Landed m [] := by
  have reached : ∀ {x}, p.graph.Reached x → (p.pruned.content x).instrs = (p.content x).instrs ∧
      (p.pruned.content x).terminator = (p.content x).terminator ∧ ((p.content x).phis = [] → (p.pruned.content x).phis = []) := by
    intro x reached
    unfold content
    rw [show p.pruned.graph.block? x = _ from Graph.block?_prune,if_pos reached]
    cases p.graph.block? x with
    | none => exact ⟨rfl,rfl,fun _ => rfl⟩
    | some k => exact ⟨rfl,rfl,fun bare => by simp_all [keepPredecessors]⟩
  have dropped : ∀ {x}, ¬ p.graph.Reached x → p.pruned.content x = ⟨[],[],none⟩ := fun unreached =>
    content_of_absent (Graph.block?_prune.trans (if_neg unreached))
  have old : ∀ {x t}, (p.pruned.content x).terminator = some t → p.graph.Reached x ∧ (p.content x).terminator = some t := by
    intro x t ended
    by_cases there : p.graph.Reached x
    · exact ⟨there,(reached there).2.1 ▸ ended⟩
    · simp [dropped there] at ended
  have code : ∀ {x i}, i ∈ (p.pruned.content x).instrs → p.graph.Reached x ∧ i ∈ (p.content x).instrs := by
    intro x i inside
    by_cases there : p.graph.Reached x
    · exact ⟨there,(reached there).1 ▸ inside⟩
    · simp [dropped there] at inside
  have continues : ∀ {a b}, p.pruned.ContinuesAt a b → p.ContinuesAt a b := by
    rintro a b ⟨dest,site,unwind,ended⟩
    exact ⟨dest,site,unwind,(old ended).2⟩
  have ordinary : ∀ {b}, p.Ordinary [] b → p.pruned.Ordinary [] b := fun before =>
    ⟨before.outside,before.bound,fun record inside => before.plain record (code inside).2⟩
  have lands : ∀ {x}, p.graph.Reached x → p.LandsAt m x → p.pruned.LandsAt m x := by
    intro x there lands
    obtain ⟨instrs,ended,bare⟩ := reached there
    refine ⟨bare lands.1,?_⟩
    rw [instrs,ended]
    exact lands.2
  refine ⟨fun {b} beyond => ?_,⟨landed.entry.1,fun record inside => landed.entry.2 record (code inside).2⟩,fun {a t} ended => ?_,
    fun {b record} inside => .inr ?_,by simp⟩
  · rw [show p.pruned.graph.block? b = _ from Graph.block?_prune,landed.unused beyond]
    exact ite_self _
  · obtain ⟨there,ended⟩ := old ended
    have edge : ∀ {b}, b ∈ t.successors → p.graph.Reached b := fun inside => .step there (mem_successors.mpr ⟨t,ended,inside⟩)
    have allows := landed.ends ended
    cases t with
    | invoke dest site normal unwind =>
      obtain ⟨reserved,complete⟩ := allows
      exact ⟨⟨ordinary reserved.toOrdinary,(reached (edge (.head _))).2.2 reserved.bare,fun goes => reserved.single (continues goes)⟩,
        lands (edge (.tail _ (.head _))) complete⟩
    | _ => exact fun b inside => ⟨ordinary (allows b inside).toOrdinary,fun a goes => (allows b inside).unreserved a (continues goes)⟩
  · obtain ⟨there,inside⟩ := code inside
    obtain ⟨complete,-⟩ := (landed.pads inside).resolve_left (by simp)
    refine ⟨lands there complete,?_⟩
    cases there with
    | entry => exact absurd inside (landed.entry.2 record)
    | @step a _ before edge =>
      obtain ⟨dest,site,normal,ended⟩ := unwindsTo_iff.mp (landed.sources complete edge)
      exact ⟨a,unwindsTo_iff.mpr ⟨dest,site,normal,(reached before).2.1.trans ended⟩⟩

end

end Procedure

end BlockLowering
