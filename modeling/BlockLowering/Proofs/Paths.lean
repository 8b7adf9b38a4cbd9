import BlockLowering.Proofs.Validity
/-!
Paths of control through a function, instruction by instruction. A definition comes before a place on
every path exactly when the dominance of blocks and the order inside one block say so.
-/
namespace BlockLowering
open List Option BlockLowering.Graph

/-- A move of control: into the function, into a block, past an instruction, or over an edge, which has
    its number among the successors of its source. -/
inductive Move where
  | start
  | head (block : BlockId)
  | instr (block : BlockId) (index : Nat)
  | edge (source : BlockId) (number : Nat)
  deriving DecidableEq, Repr

def Move.block? : Move → Option BlockId
  | .start => none
  | .head block | .instr block _ | .edge block _ => some block

/-- The move that gives a register its value at a site; an invoke does so on one of its edges only. -/
def Site.move? : Site → Option Move
  | .parameter => some .start
  | .phi block => some (.head block)
  | .instr block index => some (.instr block index)
  | .invoke _ => none

namespace Graph
variable {g : Graph} {a b d x : BlockId} {k : Block} {moves : List Move} {m n : Nat}

/-- The moves, last one first, of a way from the entry to a place of a block along existing blocks. The
    place behind the last instruction is that of the terminator. -/
inductive Path (g : Graph) : List Move → BlockId → Nat → Prop
  | start : Path g [.head g.entry,.start] g.entry 0
  | instr {moves : List Move} {b : BlockId} {k : Block} {n : Nat} : Path g moves b n → g.block? b = some k →
      n < k.instrs.length → Path g (.instr b n :: moves) b (n + 1)
  | edge {moves : List Move} {b x : BlockId} {k : Block} {number : Nat} : Path g moves b k.instrs.length →
      g.block? b = some k → k.successors[number]? = some x → g.hasBlock x = true →
      Path g (.head x :: .edge b number :: moves) x 0

/-- Some path leads to a place without a move. -/
def Misses (g : Graph) (move : Move) (b : BlockId) (n : Nat) : Prop := ∃ moves, g.Path moves b n ∧ move ∉ moves

theorem mem_successors {number : Nat} (found : g.block? b = some k) (there : k.successors[number]? = some x) : x ∈ g.successors b := by
  rw [successors_of_block found]
  exact mem_of_getElem? there

/-! ### From a path to its blocks -/

section
variable (path : g.Path moves b n)
include path

theorem Path.reached : g.Reached b := by
  induction path with
  | start => exact .entry
  | instr _ _ _ ih => exact ih
  | edge _ found there _ ih => exact .step ih (mem_successors found there)

theorem Path.start_mem : .start ∈ moves := by
  induction path with
  | start => simp
  | instr _ _ _ ih => exact .tail _ ih
  | edge _ _ _ _ ih => exact .tail _ (.tail _ ih)

theorem Path.instr_mem (less : m < n) : .instr b m ∈ moves := by
  induction path with
  | start => omega
  | @instr moves b k n path found bound ih =>
    by_cases last : m = n
    · exact last ▸ (.head _)
    · exact .tail _ (ih (by omega))
  | edge => omega

theorem Path.avoiding (never : Move.head d ∉ moves) : g.Avoiding d b := by
  induction path with
  | start =>
    simp only [mem_cons,Move.head.injEq,not_or] at never
    exact .entry (Ne.symm never.1)
  | instr _ _ _ ih => exact ih fun inside => never (.tail _ inside)
  | edge _ found there _ ih =>
    simp only [mem_cons,Move.head.injEq,not_or] at never
    exact .step (ih never.2.2) (mem_successors found there) (Ne.symm never.1)

theorem Path.avoiding_of_instr (found : g.block? d = some k) (bound : m < k.instrs.length)
    (never : Move.instr d m ∉ moves) (other : b ≠ d) : g.Avoiding d b := by
  induction path with
  | start => exact .entry other
  | instr _ _ _ ih => exact ih (fun inside => never (.tail _ inside)) other
  | @edge moves a x k' number path found' there _ ih =>
    have never : Move.instr d m ∉ moves := fun inside => never (.tail _ (.tail _ inside))
    by_cases left : a = d
    · -- Control leaves a block behind its last instruction only.
      subst left
      obtain rfl := mem_unique found found'
      exact absurd (path.instr_mem bound) never
    · exact .step (ih never left) (mem_successors found' there) other

theorem Path.exists_edge (entered : Move.head d ∈ moves) (inner : d ≠ g.entry) :
    ∃ a k number, .edge a number ∈ moves ∧ g.Reached a ∧ g.block? a = some k ∧ k.successors[number]? = some d := by
  induction path with
  | start =>
    simp only [mem_cons,Move.head.injEq,reduceCtorEq,not_mem_nil,or_false] at entered
    exact absurd entered inner
  | instr _ _ _ ih =>
    obtain ⟨a,k,number,inside,rest⟩ := ih ((mem_cons.mp entered).resolve_left (by simp))
    exact ⟨a,k,number,.tail _ inside,rest⟩
  | @edge moves a x k number path found there _ ih =>
    simp only [mem_cons,Move.head.injEq,reduceCtorEq,false_or] at entered
    rcases entered with rfl | before
    · exact ⟨a,k,number,by simp,path.reached,found,there⟩
    · obtain ⟨a',k',number',inside,rest⟩ := ih before
      exact ⟨a',k',number',.tail _ (.tail _ inside),rest⟩

end

/-! ### From blocks to a path -/

theorem Path.extend (path : g.Path moves b 0) (found : g.block? b = some k) (bound : n ≤ k.instrs.length) :
    ∃ further, g.Path (further ++ moves) b n ∧ ∀ move ∈ further, ∃ m, m < n ∧ move = .instr b m := by
  induction n with
  | zero => exact ⟨[],path,by simp⟩
  | succ n ih =>
    obtain ⟨further,longer,inside⟩ := ih (by omega)
    refine ⟨.instr b n :: further,.instr longer found (by omega),fun move member => ?_⟩
    rcases mem_cons.mp member with rfl | member
    · exact ⟨n,by omega,rfl⟩
    · obtain ⟨m,less,same⟩ := inside move member
      exact ⟨m,by omega,same⟩

theorem Path.misses {move : Move} (path : g.Path moves b 0) (found : g.block? b = some k) (bound : n ≤ k.instrs.length)
    (never : move ∉ moves) (apart : ∀ m, m < n → move ≠ .instr b m) : g.Misses move b n := by
  obtain ⟨further,longer,inside⟩ := path.extend found bound
  refine ⟨_,longer,fun member => ?_⟩
  rcases mem_append.mp member with new | old
  · obtain ⟨m,less,same⟩ := inside _ new
    exact apart m less same
  · exact never old

theorem Path.step (path : g.Path moves a 0) (edge : x ∈ g.successors a) (exist : g.hasBlock x = true) :
    ∃ further, g.Path (.head x :: further ++ moves) x 0 ∧ ∀ move ∈ further, move.block? = some a := by
  obtain ⟨k,found,edge⟩ := exists_block_of_edge edge
  obtain ⟨number,there⟩ := mem_iff_getElem?.mp edge
  obtain ⟨further,longer,inside⟩ := path.extend found (le_refl _)
  refine ⟨.edge a number :: further,.edge longer found there exist,fun move member => ?_⟩
  rcases mem_cons.mp member with rfl | member
  · rfl
  · obtain ⟨m,-,rfl⟩ := inside move member
    rfl

theorem Avoiding.path (avoids : g.Avoiding d b) (visited : g.Visited b) :
    ∃ moves, g.Path moves b 0 ∧ ∀ move ∈ moves, move.block? ≠ some d := by
  induction avoids with
  | entry other => exact ⟨_,.start,by simpa [Move.block?] using other⟩
  | @step a x before edge other ih =>
    rcases visited.2 with rfl | exist
    · exact ⟨_,.start,by simpa [Move.block?] using other⟩
    · obtain ⟨moves,path,apart⟩ := ih (before.reached.visited edge)
      obtain ⟨further,longer,inside⟩ := path.step edge exist
      refine ⟨_,longer,fun move member => ?_⟩
      rcases mem_append.mp member with new | old
      · rcases mem_cons.mp new with rfl | new
        · simpa [Move.block?] using other
        · rw [inside move new]
          simpa using before.ne
      · exact apart move old

theorem Reached.first (reached : g.Reached b) : b = g.entry ∨ ∃ a, g.Avoiding b a ∧ b ∈ g.successors a := by
  have around : ∀ {a}, g.Reached a → g.Avoiding b a ∨ b = g.entry ∨ ∃ a, g.Avoiding b a ∧ b ∈ g.successors a := by
    intro a before
    induction before with
    | entry =>
      by_cases same : g.entry = b
      · exact .inr (.inl same.symm)
      · exact .inl (.entry same)
    | @step a x _ edge ih =>
      rcases ih with avoids | found
      · by_cases same : x = b
        · exact .inr (.inr ⟨a,avoids,same ▸ edge⟩)
        · exact .inl (.step avoids edge same)
      · exact .inr found
  exact (around reached).resolve_left fun avoids => avoids.ne rfl

theorem Visited.path (visited : g.Visited b) : ∃ moves, g.Path moves b 0 ∧ ∀ m, .instr b m ∉ moves := by
  by_cases first : b = g.entry
  · subst first
    exact ⟨_,.start,by simp⟩
  · obtain ⟨a,avoids,edge⟩ := visited.1.first.resolve_left first
    obtain ⟨moves,path,apart⟩ := avoids.path (avoids.reached.visited edge)
    obtain ⟨further,longer,inside⟩ := path.step edge (visited.2.resolve_left first)
    refine ⟨_,longer,fun m member => ?_⟩
    rcases mem_append.mp member with new | old
    · rcases mem_cons.mp new with wrong | new
      · cases wrong
      · exact avoids.ne (some.inj (inside _ new)).symm
    · exact apart _ old rfl

/-! ### Missing a definition -/

theorem misses_head (found : g.block? b = some k) (visited : g.Visited b) (bound : n ≤ k.instrs.length) :
    g.Misses (.head d) b n ↔ ¬ g.Dominates d b := by
  constructor
  · rintro ⟨moves,path,never⟩ dominates
    exact dominates (path.avoiding never)
  · intro avoids
    obtain ⟨moves,path,apart⟩ := (not_not.mp avoids).path visited
    exact path.misses found bound (fun old => apart _ old rfl) (by simp)

theorem misses_instr {k' : Block} (found : g.block? b = some k) (visited : g.Visited b) (bound : n ≤ k.instrs.length)
    (found' : g.block? d = some k') (there : m < k'.instrs.length) :
    g.Misses (.instr d m) b n ↔ ¬ if d = b then m < n else g.Dominates d b := by
  by_cases same : d = b
  · subst same
    rw [if_pos rfl]
    refine ⟨fun ⟨moves,path,never⟩ less => never (path.instr_mem less),fun less => ?_⟩
    obtain ⟨moves,path,apart⟩ := visited.path
    exact path.misses found bound (apart m) fun m' less' here => less ((Move.instr.inj here).2 ▸ less')
  · rw [if_neg same]
    constructor
    · rintro ⟨moves,path,never⟩ dominates
      exact dominates (path.avoiding_of_instr found' there never (Ne.symm same))
    · intro avoids
      obtain ⟨moves,path,apart⟩ := (not_not.mp avoids).path visited
      exact path.misses found bound (fun old => apart _ old rfl) fun _ _ here => same (Move.instr.inj here).1

theorem misses_start (b : BlockId) (n : Nat) : ¬ g.Misses .start b n := fun ⟨_,path,never⟩ => never path.start_mem

end Graph

namespace Procedure
variable {p : Procedure} {b : BlockId} {k : Block} {r : Register} {site : Site} {move : Move} {n : Nat}

theorem instr_of_definition {source : BlockId} {position : Nat} (defined : ⟨r,.instr source position⟩ ∈ p.definitions) :
    ∃ k, p.graph.block? source = some k ∧ position < k.instrs.length := by
  rcases mem_definitions.mp defined with ⟨wrong,-⟩ | ⟨b,k,-,found,inside⟩
  · cases wrong
  · rcases Block.mem_definitions.mp inside with ⟨wrong,-⟩ | ⟨n,i,same,there,-⟩ | ⟨_,_,_,wrong,-⟩
    · cases wrong
    · obtain ⟨rfl,rfl⟩ := Site.instr.inj same
      exact ⟨k,found,(List.getElem?_eq_some_iff.mp there).1⟩
    · cases wrong

theorem misses_iff (defined : ⟨r,site⟩ ∈ p.definitions) (executes : site.move? = some move) (reached : p.graph.Reached b)
    (found : p.graph.block? b = some k) (bound : n ≤ k.instrs.length) : p.graph.Misses move b n ↔ ¬ site.CoversAt p.graph b n := by
  have visited := reached.visited_block found
  cases site with
  | parameter =>
    cases executes
    exact ⟨fun missed => absurd missed (misses_start b n),fun covers => absurd trivial covers⟩
  | phi source =>
    cases executes
    exact misses_head found visited bound
  | instr source position =>
    cases executes
    obtain ⟨k',found',there⟩ := instr_of_definition defined
    exact misses_instr found visited bound found' there
  | invoke normal => cases executes

theorem coversEdge_iff {x : BlockId} (defined : ⟨r,site⟩ ∈ p.definitions) (executes : site.move? = some move)
    (found : p.graph.block? b = some k) : site.CoversEdge p.graph b x ↔ site.CoversAt p.graph b k.instrs.length := by
  refine ⟨fun covers => ?_,fun covers => covers.edge⟩
  cases site with
  | parameter => trivial
  | phi source => exact covers
  | instr source position =>
    obtain ⟨k',found',there⟩ := instr_of_definition defined
    show if source = b then _ else _
    by_cases same : source = b
    · subst same
      obtain rfl := mem_unique found found'
      rwa [if_pos rfl]
    · rwa [if_neg same]
  | invoke normal => cases executes

end Procedure

end BlockLowering
