import BlockLowering.Proofs.Joins
/-!
Scopes around a point of a run: opening and closing the innermost one, stepping outside it for a while,
and recording something in one of them. The handler of a scope that is left behind is waited for.
-/
namespace BlockLowering
open Lower List ScopeState Nat Chain Prod
variable {state : ScopeState} {owner : Option Nat}

/-- Wait for further blocks that no scope names. -/
def Waits.aside (w : Waits) (blocks : List BlockId) : Waits := { w with others := blocks ++ w.others }

theorem Waits.mem_all_aside {w : Waits} {blocks : List BlockId} {x : BlockId} : x ∈ (w.aside blocks).all ↔ x ∈ blocks ∨ x ∈ w.all := by
  simp only [all,aside,mem_append]
  exact or_left_comm

/-- The block of the handler that a scope has come to need. -/
def handlerBlock (scopes : Array ScopeState) (id : Nat) : Option BlockId :=
  ((scopes[id]?).bind handler).map Continuation.block

theorem Chain.handlers_cons (scopes : Array ScopeState) (scope : Scope) (outer : Chain) :
    handlers scopes (scope :: outer) = (handlerBlock scopes scope.id).toList ++ outer.handlers scopes := by
  unfold handlers handlerBlock
  rw [filterMap_cons]
  split <;> rename_i found <;> simp [found]

theorem Chain.handlers_congr {scopes scopes' : Array ScopeState} {chain : Chain}
    (same : ∀ scope ∈ chain, scopes'[scope.id]? = scopes[scope.id]?) : chain.handlers scopes' = chain.handlers scopes := by
  induction chain with
  | nil => rfl
  | cons scope outer ih =>
    rw [handlers_cons,handlers_cons,handlerBlock,handlerBlock,same scope (.head _),
      ih fun other inside => same other (.tail _ inside)]

private theorem getElem?_take {α : Type} {items : Array α} {i n : Nat} (below : i < n) : (items.take n)[i]? = items[i]? := by
  rw [Array.take_eq_extract,Array.getElem?_extract]
  simp only [Nat.zero_add,Nat.sub_zero]
  split
  · rfl
  · rw [Array.getElem?_eq_none (by omega)]

section
variable {env : Environment} {roots : Expr → Prop} {supply supply' : Supply} {s s' : State} {p p' : Procedure}
  {c c' : BlockId} {scope : Scope} {chain : Chain} {level : Level} {levels : List Level}
  {available available' : List Register} {targets : List BlockId} {waits : Waits} {scopes scopes' : Array ScopeState}

namespace ChainFits

section
variable (fits : ChainFits roots supply p targets scopes chain levels)
include fits

theorem exists_level (member : scope ∈ chain) : ∃ level, (scope, level) ∈ chain.zip levels := by
  induction chain generalizing levels with
  | nil => cases member
  | cons head outer ih =>
    cases levels with
    | nil => exact fits.elim
    | cons level levels =>
      rcases mem_cons.mp member with rfl | inside
      · exact ⟨level,.head _⟩
      · obtain ⟨found,there⟩ := ih fits.2.2.2.2 inside
        exact ⟨found,.tail _ there⟩

section
variable (member : (scope, level) ∈ chain.zip levels)
include member

theorem scope_at : ∃ state, scopes[scope.id]? = some state ∧ ScopeFits roots supply p targets scope.kind level state := by
  induction chain generalizing levels with
  | nil => cases member
  | cons head outer ih =>
    cases levels with
    | nil => cases member
    | cons first levels =>
      rcases mem_cons.mp member with here | inside
      · obtain ⟨rfl,rfl⟩ := mk.inj here
        exact fits.1
      · exact ih fits.2.2.2.2 inside

theorem base_subset {registers : List Register} (covered : Covered levels registers) :
    level.anchor ⊆ level.base ∧ level.base ⊆ registers := by
  induction chain generalizing levels registers with
  | nil => cases member
  | cons head outer ih =>
    cases levels with
    | nil => cases member
    | cons first levels =>
      obtain ⟨-,anchored,outerCovered,-,rest⟩ := fits
      have base : first.base ⊆ registers := covered first rfl
      rcases mem_cons.mp member with here | inside
      · obtain ⟨rfl,rfl⟩ := mk.inj here
        exact ⟨anchored,base⟩
      · exact ih rest inside (outerCovered.mono fun _ h => base (anchored h))

theorem update (here : scopes'[scope.id]? = some state)
    (scopeFits : ScopeFits roots supply p targets scope.kind level state)
    (same : ∀ i, i ≠ scope.id → scopes'[i]? = scopes[i]?) : ChainFits roots supply p targets scopes' chain levels := by
  induction chain generalizing levels with
  | nil => cases member
  | cons head outer ih =>
    cases levels with
    | nil => cases member
    | cons first levels =>
      obtain ⟨⟨old,found,headFits⟩,anchored,covered,ordered,rest⟩ := fits
      rcases mem_cons.mp member with pair | inside
      · obtain ⟨rfl,rfl⟩ := mk.inj pair
        refine ⟨⟨state,here,scopeFits⟩,anchored,covered,ordered,rest.later (.refl _ _) (fun _ h => h) ?_⟩
        exact fun other inside => same _ (Nat.ne_of_lt (ordered other inside))
      · have other : head.id ≠ scope.id := (Nat.ne_of_lt (ordered scope (of_mem_zip inside).1)).symm
        exact ⟨⟨old,by rw [same _ other,found],headFits⟩,anchored,covered,ordered,ih rest inside⟩

end

theorem ids (member : scope ∈ chain) : scope.id < scopes.size := by
  obtain ⟨level,inside⟩ := fits.exists_level member
  obtain ⟨state,found,-⟩ := fits.scope_at inside
  exact (getElem?_eq_some_iff.mp found).1

end

end ChainFits

theorem Standing.changeScope (standing : Standing env roots supply s p c chain levels available waits)
    {f : ScopeState → ScopeState} (member : (scope, level) ∈ chain.zip levels)
    (found : s.scopes[scope.id]? = some state) (fits : ScopeFits roots supply p waits.targets scope.kind level (f state))
    (slots : (f state).slots = state.slots) (handler : state.handler = none ∨ (f state).handler = state.handler) :
    Standing env roots supply { s with scopes := s.scopes.modify scope.id f } p c chain levels available waits ∧
      Leads chain none supply s supply { s with scopes := s.scopes.modify scope.id f } ∧
      (s.scopes.modify scope.id f)[scope.id]? = some (f state) := by
  have here : (s.scopes.modify scope.id f)[scope.id]? = some (f state) := by
    simp [Array.getElem?_modify,found]
  have same : ∀ i, i ≠ scope.id → (s.scopes.modify scope.id f)[i]? = s.scopes[i]? := fun i other => by
    simp [Array.getElem?_modify,other.symm]
  have handlers : chain.handlers s.scopes ⊆ chain.handlers (s.scopes.modify scope.id f) := by
    intro x inside
    obtain ⟨other,member',there⟩ := mem_filterMap.mp inside
    refine mem_filterMap.mpr ⟨other,member',?_⟩
    by_cases own : other.id = scope.id
    · rw [own,found] at there
      rw [own,here]
      rcases handler with none | kept
      · simp [none] at there
      · simpa [kept] using there
    · rwa [same _ own]
  refine ⟨{ standing with
    stands := ⟨standing.stands.procedure,standing.stands.cursor⟩
    fits := standing.fits.update member here fits same
    accounted := standing.accounted.mono (append_subset.mpr
      ⟨subset_append_left _ _,fun _ h => mem_append_right _ (handlers h)⟩)
    named := standing.named.keep standing.named.numbered (.refl _) rfl },?_,here⟩
  exact {
    current := rfl
    later := fun there => ⟨_,there,.refl _ _⟩
    others := fun _ => rfl
    names := .refl _
    functions := fun h => h
    size := Array.size_modify
    frame := fun {i state} there outside => by
      rw [same i (outside scope (of_mem_zip member).1).symm]
      exact there
    slots := fun {i state'} there _ => by
      by_cases own : i = scope.id
      · subst own
        obtain rfl := Option.mem_unique found there
        exact ⟨_,here,slots⟩
      · exact ⟨state',by rw [same i own]; exact there,rfl⟩ }

theorem Standing.openScope (standing : Standing env roots supply s p c chain levels available waits) (kind : ScopeKind)
    (fits : KindFits roots supply p waits.targets ⟨available,available⟩ kind) :
    Standing env roots supply { s with scopes := s.scopes.push .empty } p c (⟨s.scopes.size,kind⟩ :: chain)
      (⟨available,available⟩ :: levels) available waits := by
  have old : ∀ scope ∈ chain, (s.scopes.push empty)[scope.id]? = s.scopes[scope.id]? := fun scope inside => by
    have bound := standing.fits.ids inside
    rw [Array.getElem?_push,if_neg (Nat.ne_of_lt bound)]
  refine { standing with
    stands := ⟨standing.stands.procedure,standing.stands.cursor⟩
    fits := ⟨⟨.empty,by simp,?_⟩,fun _ h => h,standing.covered,fun other inside => standing.fits.ids inside,?_⟩
    covered := ?_
    accounted := ?_
    named := standing.named.keep standing.named.numbered (.refl _) rfl }
  · exact ⟨by simp [empty],by simp [empty],by simp [empty],
      by simp [empty],fits⟩
  · exact standing.fits.later (.refl _ _) (fun _ h => h) old
  · intro found there
    cases there
    exact fun _ h => h
  · rw [handlers_cons,handlers_congr old]
    simpa [handlerBlock,empty] using standing.accounted

theorem Standing.outward (standing : Standing env roots supply s p c (scope :: chain) (level :: levels) available waits) :
    Standing env roots supply s p c chain levels available (waits.aside (handlerBlock s.scopes scope.id).toList) := by
  obtain ⟨-,anchored,covered,-,rest⟩ := standing.fits
  refine { standing with
    fits := rest
    covered := covered.mono fun _ h => standing.covered level rfl (anchored h)
    accounted := standing.accounted.mono fun x inside => ?_ }
  simp only [handlers_cons,mem_append] at inside
  simp only [mem_append,Waits.mem_all_aside]
  rcases inside with waited | handler | outer
  · exact .inl (.inr waited)
  · exact .inl (.inl handler)
  · exact .inr outer

theorem Standing.inward {targets : List BlockId} (fits : ChainFits roots supply p targets s.scopes (scope :: chain) (level :: levels))
    (there : s.builder.procedure? = some p) (leads : Leads chain none supply s supply' s')
    (after : Standing env roots supply' s' p' c' chain levels available' (waits.aside (handlerBlock s.scopes scope.id).toList))
    (base : level.base ⊆ available') (settled : ∀ {state}, ScopeFits roots supply' p' targets scope.kind level state →
      ScopeFits roots supply' p' waits.targets scope.kind level state) :
    Standing env roots supply' s' p' c' (scope :: chain) (level :: levels) available' waits ∧
      Leads (scope :: chain) none supply s supply' s' ∧ s'.scopes[scope.id]? = s.scopes[scope.id]? := by
  obtain ⟨⟨state,found,scopeFits⟩,anchored,covered,ordered,-⟩ := fits
  have same : s'.scopes[scope.id]? = some state :=
    leads.frame found fun other inside => Nat.ne_of_lt (ordered other inside)
  obtain ⟨q,here,later⟩ := leads.later there
  obtain rfl := after.unique here
  refine ⟨{ after with
    fits := ⟨⟨state,same,settled (scopeFits.later later fun _ h => h)⟩,anchored,covered,ordered,after.fits⟩
    covered := ?_
    accounted := after.accounted.mono fun x inside => ?_ },leads.widen (subset_cons_self _ _),same.trans found.symm⟩
  · intro found there
    cases there
    exact base
  · have kept : handlerBlock s'.scopes scope.id = handlerBlock s.scopes scope.id := by
      simp [handlerBlock,same,found]
    simp only [mem_append,Waits.mem_all_aside] at inside
    simp only [handlers_cons,mem_append,kept]
    rcases inside with (handler | waited) | outer
    · exact .inr (.inl handler)
    · exact .inl waited
    · exact .inr (.inr outer)

section
variable (standing : Standing env roots supply s p c (scope :: chain) (level :: levels) available waits)
include standing

theorem Standing.closeScope : Standing env roots supply { s with scopes := s.scopes.take scope.id } p c chain levels available
      (waits.aside (handlerBlock s.scopes scope.id).toList) := by
  have outside := standing.outward
  have same : ∀ other ∈ chain, (s.scopes.take scope.id)[other.id]? = s.scopes[other.id]? := fun other inside => by
    have below := standing.fits.2.2.2.1 other inside
    exact getElem?_take below
  exact { outside with
    stands := ⟨outside.stands.procedure,outside.stands.cursor⟩
    fits := outside.fits.later (.refl _ _) (fun _ h => h) same
    accounted := by
      rw [handlers_congr same]
      exact outside.accounted
    named := outside.named.keep outside.named.numbered (.refl _) rfl }

theorem Standing.closePlain (plain : scope.kind.catches = false) :
    Standing env roots supply { s with scopes := s.scopes.take scope.id } p c chain levels available waits := by
  have closed := standing.closeScope
  obtain ⟨⟨state,found,fits⟩,-⟩ := standing.fits
  have bare : handlerBlock s.scopes scope.id = none := by
    cases handler : state.handler with
    | none => simp [handlerBlock,found,handler]
    | some h =>
      have catches := (fits.handler handler).2.2
      rw [plain] at catches
      cases catches
  rw [bare] at closed
  exact closed

end

theorem Leads.closeScope {kind : ScopeKind}
    (leads : Leads (⟨s.scopes.size,kind⟩ :: chain) owner supply { s with scopes := s.scopes.push .empty } supply' s')
    (own : owner = none ∨ owner = some s.scopes.size) :
    Leads chain none supply s supply' { s' with scopes := s'.scopes.take s.scopes.size } where
  current := leads.current
  later := leads.later
  others := leads.others
  names := leads.names
  functions := leads.functions
  size := by
    have size : s'.scopes.size = (s.scopes.push .empty).size := leads.size
    simp [size]
  frame {i state} found outside := by
    have below := (getElem?_eq_some_iff.mp found).1
    have pushed : (s.scopes.push empty)[i]? = some state := by
      rw [Array.getElem?_push,if_neg (Nat.ne_of_lt below),found]
    refine (getElem?_take below).trans (leads.frame pushed ?_)
    intro scope inside
    rcases mem_cons.mp inside with rfl | inside
    · exact (Nat.ne_of_lt below).symm
    · exact outside scope inside
  slots {i state} found _ := by
    have below := (getElem?_eq_some_iff.mp found).1
    have pushed : (s.scopes.push empty)[i]? = some state := by
      rw [Array.getElem?_push,if_neg (Nat.ne_of_lt below),found]
    have other : owner ≠ some i := by
      rcases own with rfl | rfl
      · simp
      · simpa using (Nat.ne_of_lt below).symm
    obtain ⟨state',kept,same⟩ := leads.slots pushed other
    exact ⟨state',(getElem?_take below).trans kept,same⟩

/-! ### Other points of the function -/

theorem Block.Grows.earlier {k k' : Block} (grown : k.Grows k') (isOpen : k'.terminator = none) : k.terminator = none := by
  cases ended : k.terminator with
  | none => rfl
  | some t => simp [(grown.ended ended).1] at isOpen

theorem Procedure.Grows.isOpen {p p' : Procedure} {b : BlockId} (grows : p.Grows p') (here : ∃ k, p.graph.block? b = some k)
    (isOpen : p'.IsOpen b) : p.IsOpen b := by
  obtain ⟨k',found',isOpen⟩ := isOpen
  obtain ⟨k,found⟩ := here
  obtain ⟨k'',found'',grown⟩ := grows.blocks found
  obtain rfl := Option.mem_unique found' found''
  exact ⟨k,found,grown.earlier isOpen⟩

theorem Reaches.later (reaches : Reaches supply p c available) (later : Later supply p supply' p')
    {k : Block} (found : p.graph.block? c = some k) : Reaches supply' p' c available where
  taken r inside := Nat.lt_of_lt_of_le (reaches.taken r inside) later.grows.registers
  holds {k'} found' isOpen' r inside := by
    obtain ⟨k₁,found₁,grown⟩ := later.grows.blocks found
    obtain rfl := Option.mem_unique found' found₁
    have holds := reaches.holds found (grown.earlier isOpen') r inside
    obtain ⟨more,slots,-⟩ := later.grows.slots
    obtain ⟨added,code⟩ := grown.code
    unfold Procedure.Holds Procedure.inputs at holds ⊢
    rw [later.grows.header,later.supply found,slots,grown.merges,← code,filterMap_append]
    rcases holds with input | slot | counted | merged | computed
    · exact .inl input
    · exact .inr (.inl (mem_append_left _ slot))
    · exact .inr (.inr (.inl counted))
    · exact .inr (.inr (.inr (.inl merged)))
    · exact .inr (.inr (.inr (.inr (mem_append_left _ computed))))

theorem Standing.goBack {chain' : Chain} {levels' : List Level} {waits' : Waits}
    (before : Standing env roots supply s p c chain levels available waits) (leads : Leads chain' owner supply s supply' s')
    (after : Standing env roots supply' s' p' c' chain' levels' available' waits') (ended : ¬ p'.IsOpen c')
    (covered : Covered levels' available) : Standing env roots supply' (s'.moveTo c) p' c chain' levels' available waits' ∧
      Leads chain' none supply' s' supply' (s'.moveTo c) := by
  obtain ⟨q,here,later⟩ := leads.later before.stands.procedure
  obtain rfl := after.unique here
  obtain ⟨k,found⟩ := before.here
  obtain ⟨k',found',-⟩ := later.grows.blocks found
  exact after.move ⟨k',found'⟩ (before.reaches.later later found) covered fun isOpen => absurd isOpen ended

theorem Leads.scopes_eq (leads : Leads [] none supply s supply' s') : s'.scopes = s.scopes := by
  refine Array.ext_getElem? fun i => ?_
  cases found : s.scopes[i]? with
  | some state => exact leads.frame found (by simp)
  | none =>
    rw [Array.getElem?_eq_none_iff] at found ⊢
    rwa [leads.size]

theorem Standing.attach (before : Standing env roots supply s p c chain levels available waits) (leads : Leads [] none supply s supply' s')
    (after : Standing env roots supply' s' p' c' [] [] available' (waits.aside (chain.handlers s.scopes)))
    (covered : Covered levels available') :
    Standing env roots supply' s' p' c' chain levels available' waits ∧ Leads chain none supply s supply' s' := by
  obtain ⟨q,here,later⟩ := leads.later before.stands.procedure
  obtain rfl := after.unique here
  refine ⟨{ after with
    fits := before.fits.later later (fun _ h => h) fun _ _ => by rw [leads.scopes_eq]
    covered := covered
    accounted := after.accounted.mono fun x inside => ?_ },leads.widen (nil_subset _)⟩
  rw [leads.scopes_eq]
  rcases mem_append.mp inside with waited | none
  · exact mem_append.mpr (Waits.mem_all_aside.mp waited).symm
  · cases none

theorem Standing.detach (standing : Standing env roots supply s p c chain levels available waits) :
    Standing env roots supply s p c [] [] available (waits.aside (chain.handlers s.scopes)) :=
  { standing with
    fits := trivial
    covered := by simp [Covered]
    accounted := standing.accounted.mono fun x inside => by
      refine mem_append_left _ (Waits.mem_all_aside.mpr ?_)
      exact (mem_append.mp inside).symm }

end

end BlockLowering
