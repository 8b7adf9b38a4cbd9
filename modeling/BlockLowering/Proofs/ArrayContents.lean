import BlockLowering.Proofs.FinalizedExits
import BlockLowering.Proofs.Overriding
/-!
What array literals build. A machine with arrays executes the code that a literal leaves behind its items: it allocates one
array and writes every element of it once, in order, so that the array is the concatenation of the single elements and the
contents of the spread arrays. The machine is stuck where anything is out of range.
-/
namespace BlockLowering
open Lower List SupportRoutine ArrayItem Build Builder Subset Nat
variable {words : List Word} {routine : SupportRoutine} {args : List Register} {items : List (ArrayItem Register)}

/-! ### A machine with arrays -/

/-- What a register or an element of an array holds. -/
inductive Word where
  | int (n : Int32)
  | array (a : Nat)
  | element (a i : Nat)
  | other (n : Nat)

def Word.nat? : Word → Option Nat
  | .int n => if 0 ≤ n.toInt then some n.toInt.toNat else none
  | _ => none

/-- Arrays by number, and the elements that have been written, in order. -/
structure Memory where
  arrays : List (List Word)
  writes : List (Nat × Nat)

structure Machine where
  registers : Register → Word
  memory : Memory

def Memory.write (m : Memory) (a i : Nat) (words : List Word) : Option Memory := do
  let cells ← m.arrays[a]?
  guard (i + words.length ≤ cells.length)
  return ⟨m.arrays.set a (cells.take i ++ words ++ cells.drop (i + words.length)),
    m.writes ++ (range' i words.length).map fun j => (a, j)⟩

/-- What a routine answers, and the memory behind it. -/
def Memory.call (m : Memory) : String → List Word → Option (Option Word × Memory)
  | "rt_alloc_array", [_,length] => do
    let n ← length.nat?
    return (some (.array m.arrays.length), { m with arrays := m.arrays ++ [replicate n (.other 0)] })
  | "rt_array_size", [.array a] => do
    let cells ← m.arrays[a]?
    return (some (.int (.ofNat cells.length)), m)
  | "rt_array_element_address", [.array a,index] => do
    let cells ← m.arrays[a]?
    let i ← index.nat?
    guard (i < cells.length)
    return (some (.element a i), m)
  | "rt_array_copy", [.array source,start,.array target,index,amount] => do
    let cells ← m.arrays[source]?
    let n ← amount.nat?
    let j ← start.nat?
    guard (j + n ≤ cells.length)
    return (none, ← m.write target (← index.nat?) ((cells.drop j).take n))
  | _, _ => none

namespace Machine

def set (m : Machine) : Option (Register × Word) → Machine
  | none => m
  | some (r, w) => { m with registers := fun x => if x = r then w else m.registers x }

def step (out : Module) (m : Machine) : Instr → Option Machine
  | .const dest (.i32 n) => some (m.set (some (dest, .int n)))
  | .binary dest .add left right =>
    match m.registers left, m.registers right with
    | .int x, .int y => some (m.set (some (dest, .int (x + y))))
    | _, _ => none
  | .store ptr value =>
    match m.registers ptr with
    | .element a i => (m.memory.write a i [m.registers value]).map (mk m.registers)
    | _ => none
  | .call dest ⟨.direct id,args,_,_⟩ => do
    let (answer, memory) ← m.memory.call (← out.symbol? id) (args.map m.registers)
    match dest, answer with
    | some dest, some word => some (set ⟨m.registers,memory⟩ (some (dest, word)))
    | none, none => some ⟨m.registers,memory⟩
    | _, _ => none
  | _ => none

def run (out : Module) (m : Machine) (code : List Instr) : Option Machine := code.foldlM (step out) m

end Machine

/-- What an item adds to an array. -/
def ArrayItem.contents (arrays : List (List Word)) : ArrayItem Word → Option (List Word)
  | .element w => some [w]
  | .spread (.array a) => arrays[a]?
  | .spread _ => none

/-- The last array has been filled up to a point, from its start on. -/
def Memory.filling (m : Memory) (filled rest : List Word) : Memory :=
  ⟨m.arrays ++ [filled ++ rest],m.writes ++ (range filled.length).map fun j => (m.arrays.length, j)⟩

theorem Word.nat?_ofNat {n : Nat} (small : n < 2 ^ 31) : (Word.int (.ofNat n)).nat? = some n := by
  have same : (Int32.ofNat n).toInt = n := Int32.toInt_ofNat_of_lt small
  simp [nat?,same]

theorem Memory.write_filling {m : Memory} {filled rest : List Word} (enough : words.length ≤ rest.length) :
    (m.filling filled rest).write m.arrays.length filled.length words = some (m.filling (filled ++ words) (rest.drop words.length)) := by
  simp [write,filling,guard,enough,drop_append,range_add,range'_eq_map_range]

/-! ### Code that a machine executes -/

/-- An item adds some words to an array, if registers hold words. -/
def ArrayItem.Adds (held : List (Register × Word)) (arrays : List (List Word)) (item : ArrayItem Register) (part : List Word) : Prop :=
  ∃ w, (item.expression, w) ∈ held ∧ (item.withExpression w).contents arrays = some part

/-- An item adds some words to an array, and their number is known if it is an array. -/
def SizedItem.Adds (held : List (Register × Word)) (arrays : List (List Word)) : SizedItem → List Word → Prop
  | .element r, part => (ArrayItem.element r).Adds held arrays part
  | .spread r length, part => (ArrayItem.spread r).Adds held arrays part ∧ (length, .int (.ofNat part.length)) ∈ held

/-- The code that has been appended since a point takes a machine to another one, in which some registers hold words, whatever
    else gets into the module. -/
structure Reached (env : Environment) (s₀ : State) (m₀ : Machine) (held : List (Register × Word)) (memory : Memory) (s : State) : Prop where
  code : ∃ code registers p, s₀.Appends s code ∧ (∀ {out}, s.builder.output.Keeps out → m₀.run out code = some ⟨registers,memory⟩) ∧
    s.builder.procedure? = some p ∧ ∀ q ∈ held, registers q.1 = q.2 ∧ q.1.index < p.nextRegister
  named : s.Named env

/-- What holds wherever a step leads from a point that has been reached. -/
def Executes {α : Type} (env : Environment) (s₀ : State) (m₀ : Machine) (Q : α → State → Prop) (held : List (Register × Word)) (memory : Memory)
    (step : Lower α) : Prop := ∀ s a s', Reached env s₀ m₀ held memory s → Runs step env s a s' → Q a s'

section
variable {env : Environment} {s₀ s s' : State} {m₀ m : Machine} {held held' : List (Register × Word)} {memory memory' : Memory}
  {p p₁ : Procedure} {c : BlockId} {w : Word} {arrays : List (List Word)} {part : List Word} {parts : List (List Word)}

theorem ArrayItem.Adds.mono {item : ArrayItem Register} (adds : item.Adds held arrays part) (more : held ⊆ held') : item.Adds held' arrays part := by
  obtain ⟨w,inside,same⟩ := adds
  exact ⟨w,more inside,same⟩

theorem ArrayItem.Adds.spread {r : Register} (adds : (spread r).Adds held arrays part) :
    ∃ a, (r, .array a) ∈ held ∧ arrays[a]? = some part := by
  obtain ⟨w,inside,same⟩ := adds
  cases w with
  | array a => exact ⟨a,inside,same⟩
  | _ => cases same

theorem SizedItem.Adds.mono {item : SizedItem} (adds : item.Adds held arrays part) (more : held ⊆ held') : item.Adds held' arrays part := by
  cases item with
  | element r => exact ArrayItem.Adds.mono (show (ArrayItem.element r).Adds held arrays part from adds) more
  | spread r length => exact ⟨adds.1.mono more,more adds.2⟩

namespace Reached
variable (reached : Reached env s₀ m₀ held memory s)
include reached

theorem stands : ∃ p c, s.Stands p c := by
  obtain ⟨_,_,_,⟨_,c,_,p,_,_,_,_,here,cursor,_⟩,_⟩ := reached.code
  exact ⟨p,c,here,cursor⟩

theorem quiet (quiet : s.Quiet env s') : Reached env s₀ m₀ held memory s' := by
  obtain ⟨code,registers,q,⟨p₀,c,k₀,p,k,here₀,cursor₀,found₀,here,cursor,found,same⟩,exec,there,holds⟩ := reached.code
  have unmoved := quiet.procedure
  exact ⟨⟨code,registers,q,⟨p₀,c,k₀,p,k,here₀,cursor₀,found₀,unmoved.trans here,quiet.cursor.trans cursor,found,same⟩,
    fun later => exec ((quiet.keeps reached.named).trans later),unmoved.trans there,holds⟩,quiet.named reached.named⟩

theorem append {i : Instr} {b : Builder} {u : Unit} {gained : Option (Register × Word)} (stands : s.Stands p c)
    (run : (append i).Runs (s.builder.put p₁) u b) (graph : p₁.graph = p.graph) (name : p₁.name = p.name)
    (more : p.nextRegister ≤ p₁.nextRegister) (fresh : ∀ q ∈ gained, q.1 = ⟨p.nextRegister⟩ ∧ p.nextRegister < p₁.nextRegister)
    (exec : ∀ {out registers}, s.builder.output.Keeps out → (∀ q ∈ held, registers q.1 = q.2) →
      Machine.step out ⟨registers,memory⟩ i = some (Machine.set ⟨registers,memory'⟩ gained)) :
    Reached env s₀ m₀ (gained.toList ++ held) memory' { s with builder := b } := by
  obtain ⟨k,found,-,rfl⟩ := run.append (procedure?_put stands.procedure) (put_cursor.trans stands.cursor)
  rw [put_put]
  obtain ⟨id,-,touches⟩ : ∃ id, _ ∧ State.Touches env id s (s.put (p₁.modifyBlock c fun k => k.append i)) :=
    State.touches_put stands.procedure name
  obtain ⟨code,registers,p',appends,before,here,holds⟩ := reached.code
  obtain rfl := Option.mem_unique stands.procedure here
  have next : s.Appends (s.put (p₁.modifyBlock c fun k => k.append i)) [i] :=
    ⟨p,c,k,_,k.append i,stands.procedure,stands.cursor,graph ▸ found,stands.put.procedure,stands.put.cursor,
      by rw [Procedure.block?_modifyBlock,found,Option.map_some,if_pos rfl],rfl⟩
  refine ⟨⟨code ++ [i],(Machine.set ⟨registers,memory'⟩ gained).registers,_,appends.trans next,fun later => ?_,stands.put.procedure,
    fun q inside => ?_⟩,touches.named reached.named⟩
  · have later := (touches.keeps reached.named).trans later
    rw [Machine.run,foldlM_append]
    show ((m₀.run _ code).bind fun m => m.run _ [i]) = _
    rw [before later]
    cases gained <;> simp [Machine.run,exec later fun q inside => (holds q inside).1,Machine.set]
  · rcases mem_append.mp inside with new | old
    · obtain rfl := Option.mem_toList.mp new
      obtain ⟨same,taken⟩ := fresh q rfl
      exact ⟨if_pos rfl,same ▸ taken⟩
    · obtain ⟨same,bound⟩ := holds q old
      refine ⟨?_,lt_of_lt_of_le bound more⟩
      cases gained with
      | none => exact same
      | some new =>
        obtain ⟨own,-⟩ := fresh new rfl
        refine (if_neg fun equal => ?_).trans same
        simp [equal,own] at bound

end Reached

namespace Executes
variable {α β : Type} {Q : α → State → Prop} {f : Register → Lower α} {chain : Chain}

theorem defineThen {type : NativeType} {instr : Register → Instr} (exec : ∀ {out registers r}, (∀ q ∈ held, registers q.1 = q.2) →
      Machine.step out ⟨registers,memory⟩ (instr r) = some (Machine.set ⟨registers,memory⟩ (some (r, w))))
    (rest : ∀ r, Executes env s₀ m₀ Q ((r, w) :: held) memory (f r)) :
    Executes env s₀ m₀ Q held memory (build (define type instr) >>= f) := by
  intro s a s' reached run
  obtain ⟨r,s₁,defined,run⟩ := runs_bind.mp run
  obtain ⟨p,c,stands⟩ := reached.stands
  obtain ⟨b,built,rfl⟩ := runs_build.mp defined
  obtain ⟨dest,b₁,taken,built⟩ := runs_bind.mp built
  obtain ⟨_,b₂,appended,done⟩ := runs_bind.mp built
  obtain ⟨rfl,rfl⟩ := runs_pure.mp done
  obtain ⟨rfl,rfl⟩ := taken.allocRegister stands.procedure
  exact rest _ _ a s' (reached.append stands appended rfl rfl (le_succ _) (by rintro q ⟨⟩; exact ⟨rfl,lt_succ_self _⟩) fun _ => exec) run

theorem intThen {n : Int} (rest : ∀ r, Executes env s₀ m₀ Q ((r, .int (.ofInt n)) :: held) memory (f r)) :
    Executes env s₀ m₀ Q held memory (build (int n .i32) >>= f) :=
  defineThen (fun _ => rfl) rest

theorem addThen {left right : Register} {x y : Int32} (first : (left, .int x) ∈ held) (second : (right, .int y) ∈ held)
    (rest : ∀ r, Executes env s₀ m₀ Q ((r, .int (x + y)) :: held) memory (f r)) :
    Executes env s₀ m₀ Q held memory (build (binary .add left right) >>= f) := by
  intro s a s' reached run
  obtain ⟨r,s₁,added,next⟩ := runs_bind.mp run
  obtain ⟨b,s₂,got,added⟩ := runs_build_bind.mp added
  obtain ⟨rfl,rfl⟩ := runs_build_get.mp got
  refine defineThen (fun {out registers r} holds => ?_) rest _ a s' reached (runs_bind.mpr ⟨r,s₁,added,next⟩)
  simp [Machine.step,holds _ first,holds _ second]

theorem storeThen {pointer value : Register} {a i : Nat} {f : Unit → Lower α} (address : (pointer, .element a i) ∈ held) (given : (value, w) ∈ held)
    (wrote : memory.write a i [w] = some memory') (rest : Executes env s₀ m₀ Q held memory' (f ())) :
    Executes env s₀ m₀ Q held memory (build (store pointer value) >>= f) := by
  intro s a s' reached run
  obtain ⟨_,s₁,stored,run⟩ := runs_bind.mp run
  obtain ⟨p,c,stands⟩ := reached.stands
  obtain ⟨b,built,rfl⟩ := runs_build.mp stored
  rw [← put_self stands.procedure] at built
  have reached : Reached env s₀ m₀ (none.toList ++ held) memory' _ :=
    reached.append stands built rfl rfl (le_refl _) (by simp) fun {out registers} _ holds => by
      simp [Machine.step,holds _ address,holds _ given,wrote,Machine.set]
  exact rest _ _ s' reached run

theorem callThen {answer : Option Word} {f : Option Register → Lower α}
    (plain : routine.canThrow = false) (given : Forall₂ (fun r w => (r, w) ∈ held) args words)
    (called : memory.call routine.symbol words = some (answer, memory')) (answers : answer.isSome = !routine.header.signature.returnsVoid)
    (rest : ∀ dest, Executes env s₀ m₀ Q ((answer.bind fun w => dest.map fun r => (r, w)).toList ++ held) memory' (f dest)) :
    Executes env s₀ m₀ Q held memory (callSupport chain routine args >>= f) := by
  intro s a s' reached run
  obtain ⟨dest,s₁,asked,run⟩ := runs_bind.mp run
  obtain ⟨target,s₂,entered,asked⟩ := runs_bind.mp asked
  obtain ⟨quiet,proc,rfl,symbol⟩ := entered.supportTarget
  rw [if_neg (by simp [plain])] at asked
  have known := symbol reached.named
  have reached := reached.quiet quiet
  obtain ⟨p,c,stands⟩ := reached.stands
  obtain ⟨b,built,rfl⟩ := runs_build.mp asked
  obtain ⟨taken,b₁,took,built⟩ := runs_bind.mp built
  obtain ⟨_,b₂,appended,done⟩ := runs_bind.mp built
  obtain ⟨rfl,rfl⟩ := runs_pure.mp done
  have exec : ∀ {out registers}, s₂.builder.output.Keeps out → (∀ q ∈ held, registers q.1 = q.2) → taken.isSome = answer.isSome →
      Machine.step out ⟨registers,memory⟩ (.call taken ⟨.direct proc,args,routine.header.signature,.irrelevant⟩) =
        some (Machine.set ⟨registers,memory'⟩ (answer.bind fun w => taken.map fun r => (r, w))) := by
    intro out registers later holds same
    have supplied : args.map registers = words :=
      forall₂_eq_eq_eq ▸ forall₂_map_left_iff.mpr (given.imp fun {_ _} inside => holds _ inside)
    simp only [Machine.step,later.symbols known,supplied,called,Option.bind_eq_bind,Option.bind_some]
    cases taken <;> cases answer <;> simp_all [Machine.set]
  rcases took.resultRegister stands.procedure with ⟨rfl,void,rfl⟩ | ⟨rfl,valued,rfl⟩
  · rw [← put_self stands.procedure] at appended
    exact rest _ _ a s' (reached.append stands appended rfl rfl (le_refl _) (by simp) fun later holds => exec later holds (by simp [answers,void])) run
  · refine rest _ _ a s' (reached.append stands appended rfl rfl (le_succ _) ?_ fun later holds => exec later holds (by simp [answers,valued])) run
    simp only [Option.mem_def,Option.bind_eq_some_iff,Option.map_some,Option.some.injEq]
    rintro q ⟨w,-,rfl⟩
    exact ⟨rfl,lt_succ_self _⟩

theorem queryThen {product : Product}
    (plain : routine.canThrow = false) (given : Forall₂ (fun r w => (r, w) ∈ held) args words)
    (called : memory.call routine.symbol words = some (some w, memory')) (valued : routine.header.signature.returnsVoid = false)
    (rest : ∀ r, Executes env s₀ m₀ Q ((r, w) :: held) memory' (f r)) :
    Executes env s₀ m₀ Q held memory (callSupport chain routine args >>= fun dest => produced product dest >>= f) := by
  refine callThen plain given called (by simp [valued]) fun dest s a s' reached run => ?_
  obtain ⟨r,s₁,found,run⟩ := runs_bind.mp run
  obtain ⟨rfl,rfl⟩ := runs_produced.mp found
  exact rest r _ a s' reached run

theorem measureThen {length : Register} {n k : Nat} {f : Register × List SizedItem → Lower α}
    (counted : (length, .int (.ofNat n)) ∈ held) (adds : Forall₂ (ArrayItem.Adds held memory.arrays) items parts)
    (sum : k + items.countP ArrayItem.isElement = n + parts.flatten.length)
    (rest : ∀ {held' total sized}, held ⊆ held' → (total, .int (.ofNat k)) ∈ held' →
      Forall₂ (SizedItem.Adds held' memory.arrays) sized parts → Executes env s₀ m₀ Q held' memory (f (total, sized))) :
    Executes env s₀ m₀ Q held memory (measure chain length items >>= f) := by
  induction items generalizing held length n parts f with
  | nil =>
    cases adds
    obtain rfl : k = n := by simpa using sum
    exact rest (refl _) counted .nil
  | cons item items ih =>
    obtain ⟨part,parts,first,others,rfl⟩ := forall₂_cons_left_iff.mp adds
    simp only [flatten_cons,length_append,countP_cons] at sum
    cases item with
    | element value =>
      simp only [Lower.measure,bind_assoc,pure_bind]
      obtain ⟨w,inside,same⟩ := first
      obtain rfl : [w] = part := Option.some.inj same
      simp only [ArrayItem.isElement,if_true,length_singleton] at sum
      refine ih counted others (by omega) fun {_ _ sized} more total holds => ?_
      exact rest more total (.cons (show SizedItem.Adds _ _ (.element value) [w] from ⟨w,more inside,rfl⟩) holds)
    | spread array =>
      obtain ⟨a,inside,found⟩ := first.spread
      simp only [Lower.measure,bind_assoc,pure_bind]
      have called : memory.call arraySize.symbol [.array a] = some (some (.int (.ofNat part.length)), memory) := by
        simp [Memory.call,symbol,found]
      refine queryThen rfl (.cons inside .nil) called rfl fun size => ?_
      refine addThen (.tail _ counted) (.head _) fun total => ?_
      have added : held ⊆ (total, .int (.ofNat n + .ofNat part.length)) :: (size, .int (.ofNat part.length)) :: held := by simp
      simp only [ArrayItem.isElement,Bool.false_eq_true,if_false] at sum
      refine ih (n := n + part.length) (by simp) (others.imp fun {_ _} h => h.mono added) (by omega) fun {_ _ sized} more total holds => ?_
      exact rest (Subset.trans added more) total
        (.cons (show SizedItem.Adds _ _ (.spread array size) part from ⟨(first.mono added).mono more,more (by simp)⟩) holds)

theorem fillThen {sized : List SizedItem} {array one index : Register} {filled left : List Word} {f : Unit → Lower α}
    (target : (array, .array memory.arrays.length) ∈ held) (increment : (one, .int 1) ∈ held)
    (position : (index, .int (.ofNat filled.length)) ∈ held) (adds : Forall₂ (SizedItem.Adds held memory.arrays) sized parts)
    (room : left.length = parts.flatten.length) (small : filled.length + left.length < 2 ^ 31)
    (rest : ∀ {held'}, held ⊆ held' → Executes env s₀ m₀ Q held' (memory.filling (filled ++ parts.flatten) []) (f ())) :
    Executes env s₀ m₀ Q held (memory.filling filled left) (fillArray chain array one index sized >>= f) := by
  induction sized generalizing held index filled left parts with
  | nil =>
    cases adds
    obtain rfl : left = [] := length_eq_zero_iff.mp room
    simpa [fillArray] using rest (refl _)
  | cons item sized ih =>
    obtain ⟨part,parts,first,others,rfl⟩ := forall₂_cons_left_iff.mp adds
    simp only [flatten_cons,length_append] at room rest
    have place : (Word.int (.ofNat filled.length)).nat? = some filled.length := Word.nat?_ofNat (by omega)
    -- What is left to do once the part has been written and the index moved on.
    have goesOn : ∀ {held' next}, held ⊆ held' → (next, .int (.ofNat filled.length + .ofNat part.length)) ∈ held' →
        Executes env s₀ m₀ Q held' (memory.filling (filled ++ part) (left.drop part.length)) (fillArray chain array one next sized >>= f) := by
      intro held' next more moved
      refine ih (more target) (more increment) (by simpa using moved) (others.imp fun {_ _} h => h.mono more) (by simp [room])
        (by simp; omega) fun further => ?_
      simpa using rest (Subset.trans more further)
    cases item with
    | element value =>
      obtain ⟨w,inside,same⟩ := first
      obtain rfl : [w] = part := Option.some.inj same
      simp only [fillArray,bind_assoc,build_bind]
      have called : (memory.filling filled left).call arrayElementAddress.symbol [.array memory.arrays.length,.int (.ofNat filled.length)] =
          some (some (.element memory.arrays.length filled.length), memory.filling filled left) := by
        have nonempty : 0 < left.length := by simp [room]
        simp [Memory.call,symbol,Memory.filling,place,guard,nonempty]
      refine queryThen rfl (.cons target (.cons position .nil)) called rfl fun address => ?_
      refine storeThen (.head _) (.tail _ inside) (Memory.write_filling (by simp [room])) ?_
      exact addThen (.tail _ position) (.tail _ increment) fun next => goesOn (by simp) (.head _)
    | spread source length =>
      obtain ⟨spread,counted⟩ := first
      obtain ⟨a,inside,found⟩ := spread.spread
      simp only [fillArray,bind_assoc]
      have called : (memory.filling filled left).call arrayCopy.symbol
          [.array a,.int (.ofInt 0),.array memory.arrays.length,.int (.ofNat filled.length),.int (.ofNat part.length)] =
          some (none, memory.filling (filled ++ part) (left.drop part.length)) := by
        have all : (Word.int (.ofNat part.length)).nat? = some part.length := Word.nat?_ofNat (by omega)
        have start : (Word.int 0).nat? = some 0 := rfl
        have found : (memory.filling filled left).arrays[a]? = some part := by
          rw [Memory.filling,getElem?_append_left (List.getElem?_eq_some_iff.mp found).1,found]
        simp [Memory.call,symbol,found,place,all,start,guard,Memory.write_filling (show part.length ≤ left.length by omega)]
      refine intThen fun zero => callThen rfl ?_ called rfl fun dest => ?_
      · simp [target,position,counted,inside]
      · exact addThen (.tail _ position) (.tail _ counted) fun next => goesOn (by simp) (.head _)

end Executes

end

/-- The code between two points allocates one array, to which a value leads, and writes each of its elements once, in order. -/
def Builds (s : State) (m : Machine) (words : List Word) (ty : Ty) (v : Value) (s' : State) : Prop :=
  ∃ result code m', v = .ofRegister result ty ∧ s.Appends s' code ∧ (∀ {out}, s'.builder.output.Keeps out → m.run out code = some m') ∧
    m'.registers result = .array m.memory.arrays.length ∧ m'.memory.arrays = m.memory.arrays ++ [words] ∧
    m'.memory.writes = m.memory.writes ++ (range words.length).map fun j => (m.memory.arrays.length, j)

theorem met_builds (env : Environment) : Met env fun r chain e s v s' =>
    ∀ {elementType items registers s₁ m parts}, e.node = .arrayLiteral elementType items → s.builder.isTerminated = false →
      Runs (evalItems r chain items) env (s.noting e) (some registers) s₁ →
      Forall₂ (ArrayItem.Adds ((registers.map expression).map fun r => (r, Machine.registers m r)) m.memory.arrays) registers parts →
      parts.flatten.length < 2 ^ 31 → Builds s₁ m parts.flatten e.ty v s' := by
  intro depth chain e o available ahead known live s v s' small stance run elementType items registers s₁ m parts node alive evaluated contents few
  obtain ⟨_,ty,location⟩ := e
  obtain rfl : _ = _ := node
  have admits : ∀ item ∈ items, Admits (fun _ => True) depth chain item.expression := fun item inside => by
    have part := Expr.size_le_itemsSize inside
    simp only [Expr.size,Expr.nodeSize] at small
    exact ⟨by omega,.root trivial⟩
  obtain ⟨supply,p,c,point⟩ := (((lowers_lowerWithin depth).evalItems admits).agree (stance.noting alive _) (nil_subset _)).2.of_runs evaluated |>.point
  obtain ⟨k,found⟩ := point.standing.here
  have stands := point.standing.stands
  let held := (registers.map expression).map fun r => (r, m.registers r)
  have reached : Reached env s₁ m held m.memory s₁ := by
    refine ⟨⟨[],m.registers,p,⟨p,c,k,p,k,stands.procedure,stands.cursor,found,stands.procedure,stands.cursor,found,
      (append_nil _).symm⟩,fun _ => rfl,stands.procedure,fun q inside => ?_⟩,point.standing.named⟩
    obtain ⟨r,taken,rfl⟩ := mem_map.mp inside
    exact ⟨rfl,point.standing.reaches.taken _ (mem_append_left _ taken)⟩
  have run := Runs.stepNode run alive
  obtain ⟨_,s₂,again,run⟩ := runs_bind.mp run
  obtain ⟨same,rfl⟩ := Prod.mk.inj (again.symm.trans evaluated)
  obtain rfl := Except.ok.inj same
  refine Executes.intThen (Q := Builds _ m parts.flatten ty) (fun fixed => ?_) _ v s' reached run
  refine .measureThen (n := registers.countP isElement) (by simp [Int32.ofInt_eq_ofNat])
    (contents.imp fun {_ _} h => h.mono (subset_cons_self _ _)) (add_comm _ _) fun {_ total sized} _ counted holds => ?_
  have allocated : m.memory.call allocArray.symbol [.int (.ofInt elementType.storage.size),.int (.ofNat parts.flatten.length)] =
      some (some (.array m.memory.arrays.length), m.memory.filling [] (replicate parts.flatten.length (.other 0))) := by
    simp [Memory.call,symbol,Word.nat?_ofNat few,Memory.filling,-length_flatten]
  refine .intThen fun size => .queryThen rfl (.cons (.head _) (.cons (.tail _ counted) .nil)) allocated rfl fun array => ?_
  refine .intThen fun one => .intThen fun start => .fillThen (by simp) (by simp) (by simp)
    (holds.imp fun {_ _} h => h.mono fun _ inside => by simp [inside]) (by simp) (by simpa using few) fun more s v s' reached run => ?_
  obtain ⟨rfl,rfl⟩ := runs_pure.mp run
  obtain ⟨code,registers,p,appends,exec,-,known⟩ := reached.code
  exact ⟨array,code,_,rfl,appends,exec,(known (array, .array m.memory.arrays.length) (more (by simp))).1,
    by simp [Memory.filling],by simp [Memory.filling]⟩

/-! ### Items and their registers -/

/-- A value gets into a register: it is in one already, or it is the unit singleton, whose address is loaded. -/
def Value.Held (v : Value) (s : State) (register : Register) (s' : State) : Prop :=
  v.form = .register register ∧ s' = s ∨
  v.form = .unit ∧ ∃ unit, s'.symbols.globals.get? .unit = some unit ∧ s.Appends s' [.const register (.global unit)]

/-- The items of a literal are lowered in order, each into a register of its own position, unless one of them does not complete. -/
inductive Evaluates (env : Environment) (r : Recurse) (chain : Chain) : List (ArrayItem Expr) → State → Option (List Register) → State → Prop
  | nil {s} : Evaluates env r chain [] s (some []) s
  | stop {item items s v s'} : Runs (r chain item.expression) env s v s' → v.isUnreachable = true ∨ s'.Closed →
    Evaluates env r chain (item :: items) s none s'
  | cons {item items s v s₁ register s₂ found s'} : Runs (r chain item.expression) env s v s₁ → ¬ s₁.Closed → v.Held s₁ register s₂ →
    Evaluates env r chain items s₂ found s' → Evaluates env r chain (item :: items) s (found.map (register :: ·)) s'

/-- The single elements and the contents of the spread arrays, in the order of the items, each of which has a register. -/
def Machine.concatenation? (m : Machine) : List (ArrayItem Expr) → List Register → Option (List Word)
  | [], [] => some []
  | item :: items, register :: registers => do
    let part ← (item.withExpression (m.registers register)).contents m.memory.arrays
    return part ++ (← m.concatenation? items registers)
  | _, _ => none

/-- An array literal evaluates its items. If they complete, then there is a register for each of them, and the code behind them builds
    the concatenation of the single elements and the contents of the spread arrays. -/
def Concatenates (env : Environment) : Expectation := fun r chain e s v s' =>
  ∀ {elementType items}, e.node = .arrayLiteral elementType items → s.builder.isTerminated = false →
    ∃ found s₁, Evaluates env r chain items (s.noting e) found s₁ ∧
      match found with
      | none => v = .unreachable e.ty ∧ s' = s₁
      | some registers => registers.length = items.length ∧
        ∀ {m words}, Machine.concatenation? m items registers = some words → words.length < 2 ^ 31 → Builds s₁ m words e.ty v s'

section
variable {env : Environment} {r : Recurse} {chain : Chain} {items : List (ArrayItem Expr)} {s s' : State} {v : Value} {register : Register}
  {registers : List Register}

theorem Evaluates.length_eq (evaluates : Evaluates env r chain items s (some registers) s') : registers.length = items.length := by
  generalize all : some registers = found at evaluates
  induction evaluates generalizing registers with
  | nil => cases all; rfl
  | stop => cases all
  | cons _ _ _ _ ih =>
    obtain ⟨others,rfl,rfl⟩ := Option.map_eq_some_iff.mp all.symm
    exact congrArg (· + 1) (ih rfl)

theorem State.Appends.after {s₁ : State} {code : List Instr} (appends : s₁.Appends s' code) (quiet : s.Quiet env s₁) : s.Appends s' code := by
  obtain ⟨p,c,k,p',k',here,cursor,found,rest⟩ := appends
  exact ⟨p,c,k,p',k',quiet.procedure.symm.trans here,quiet.cursor.symm.trans cursor,found,rest⟩

theorem Lower.Runs.held (run : Runs (Lower.materialize v) env s register s') : v.Held s register s' := by
  unfold Lower.materialize at run
  cases form : v.form with
  | register own =>
    simp only [form,runs_pure] at run
    obtain ⟨rfl,rfl⟩ := run
    exact .inl ⟨form,rfl⟩
  | unit =>
    simp only [form,runs_bind] at run
    obtain ⟨unit,s₁,entered,made⟩ := run
    obtain ⟨quiet,known⟩ := entered.globalOf_entered
    refine .inr ⟨form,unit,?_,made.appends_define.after quiet⟩
    obtain ⟨_,-,rfl⟩ := runs_build.mp made
    exact known
  | unreachable => simp [form] at run

theorem Lower.Runs.evaluates {found : Option (List (ArrayItem Register))} (run : Runs (Lower.evalItems r chain items) env s found s') :
    ∃ registers, Evaluates env r chain items s registers s' ∧ found = registers.map (zipWith (fun item => item.withExpression) items) := by
  induction items generalizing s s' found with
  | nil =>
    obtain ⟨rfl,rfl⟩ := runs_pure.mp run
    exact ⟨some [],.nil,rfl⟩
  | cons item items ih =>
    obtain ⟨value,s₁,evaluated,run⟩ := runs_bind.mp run
    obtain ⟨v,lowered,⟨rfl,ends⟩ | ⟨rfl,-,alive⟩⟩ := evaluated.eval
    · obtain ⟨rfl,rfl⟩ := runs_pure.mp run
      exact ⟨none,.stop lowered ends,rfl⟩
    · obtain ⟨register,s₂,loaded,run⟩ := runs_bind.mp run
      obtain ⟨others,s₃,rest,run⟩ := runs_bind.mp run
      obtain ⟨registers,evaluates,rfl⟩ := ih rest
      cases registers <;> obtain ⟨rfl,rfl⟩ := runs_pure.mp run
      · exact ⟨none,.cons lowered alive loaded.held evaluates,rfl⟩
      · exact ⟨some (register :: _),.cons lowered alive loaded.held evaluates,rfl⟩

theorem Machine.adds_of_concatenation {m : Machine} {words : List Word} (total : m.concatenation? items registers = some words) :
    ∃ parts, words = parts.flatten ∧ Forall₂ (ArrayItem.Adds (((zipWith (fun item => item.withExpression) items registers).map expression).map
      fun r => (r, m.registers r)) m.memory.arrays) (zipWith (fun item => item.withExpression) items registers) parts := by
  induction items generalizing registers words with
  | nil =>
    cases registers with
    | nil => exact ⟨[],(Option.some.inj total).symm,.nil⟩
    | cons => cases total
  | cons item items ih =>
    cases registers with
    | nil => cases total
    | cons register registers =>
      obtain ⟨part,own,total⟩ := Option.bind_eq_some_iff.mp total
      obtain ⟨others,rest,⟨⟩⟩ := Option.bind_eq_some_iff.mp total
      obtain ⟨parts,rfl,adds⟩ := ih rest
      refine ⟨part :: parts,rfl,.cons ⟨m.registers register,by cases item <;> exact .head _,by cases item <;> exact own⟩ ?_⟩
      exact adds.imp fun {_ _} h => h.mono (subset_cons_self _ _)

end

theorem met_concatenates (env : Environment) : Met env (Concatenates env) := by
  intro depth chain e o available ahead known live s v s' small stance run elementType items node alive
  obtain ⟨_,ty,location⟩ := e
  obtain rfl : _ = _ := node
  obtain ⟨found,s₁,evaluated,rest⟩ := runs_bind.mp (Runs.stepNode run alive)
  obtain ⟨registers,evaluates,rfl⟩ := evaluated.evaluates
  refine ⟨registers,s₁,evaluates,?_⟩
  cases registers with
  | none => exact runs_pure.mp rest
  | some registers =>
    refine ⟨evaluates.length_eq,fun {m words} total few => ?_⟩
    obtain ⟨parts,rfl,adds⟩ := m.adds_of_concatenation total
    exact met_builds env small stance run rfl alive evaluated adds few

/-- Array literals build the concatenation of their items: no program is lowered differently if that is checked wherever an array
    literal has been lowered. -/
theorem lowerProgram_concatenates (env : Environment) (strings : StringPool) (units : List SourceUnit) :
    observedProgram (Concatenates env) env strings units = lowerProgram env strings units :=
  observedProgram_eq (met_concatenates env) strings units

end BlockLowering
