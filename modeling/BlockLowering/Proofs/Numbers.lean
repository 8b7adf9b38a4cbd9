import BlockLowering.Proofs.Outputs
import BlockLowering.Proofs.Overriding
/-!
Numbers in registers. Integers and truth values are bits, of which characters and truth values are read without a sign. A
machine executes the code of conversions and comparisons. A conversion keeps the number as far as the width of its target
allows, but what becomes a float is read with a sign; and so are both sides of a comparison, whatever they are.
-/
namespace BlockLowering
open Lower List Option Function BlockLowering.Action Instr Nat Binary Table
variable {v w : Nat} {op : CompareOp}

/-! ### A machine for values -/

/-- The pattern nearest to a whole number. -/
def Binary.ofInt (f : Format) (n : Int) : Nat := ofFraction f (n < 0) n.natAbs 1

/-- What a register holds. -/
inductive Scalar where
  | bits (width : Nat) (value : BitVec width)
  | float (format : Binary.Format) (pattern : Nat)
  | null
  | address (id : GlobalId)
  | object (n : Nat)
  deriving DecidableEq

abbrev Scalar.ofBool (b : Bool) : Scalar := bits 1 (.ofBool b)

abbrev Registers := Register → Scalar

abbrev Answers := ProcId → List Scalar → Option Scalar

def NativeType.format? : NativeType → Option Binary.Format
  | .f32 => some single
  | .f64 => some double
  | _ => none

def Literal.scalar? : Literal → Option Scalar
  | .null => some .null
  | .bool b => some (.ofBool b)
  | .i8 n => some (.bits 8 n.toBitVec)
  | .i16 n => some (.bits 16 n.toBitVec)
  | .i32 n => some (.bits 32 n.toBitVec)
  | .i64 n => some (.bits 64 n.toBitVec)
  | .global id => some (.address id)
  | _ => none

def CompareOp.holds? : CompareOp → Int → Int → Option Bool
  | .eq, x, y => some (x = y)
  | .ne, x, y => some (x ≠ y)
  | .lt, x, y => some (x < y)
  | .le, x, y => some (x ≤ y)
  | .gt, x, y => some (y < x)
  | .ge, x, y => some (y ≤ x)
  | _, _, _ => none

namespace Scalar

/-- Comparisons of integers have a sign; references are the same or not. -/
def compare : CompareOp → Scalar → Scalar → Option Bool
  | op, bits w a, bits v b => if w = v then op.holds? a.toInt b.toInt else none
  | .eq, x, y => some (x = y)
  | _, _, _ => none

def cast (kind : CastKind) (type : NativeType) : Scalar → Option Scalar
  | bits _ a =>
    match kind, type.bitWidth?, type.format? with
    | .trunc, some v, _ => some (bits v (a.setWidth v))
    | .signExtend, some v, _ => some (bits v (a.signExtend v))
    | .zeroExtend, some v, _ => some (bits v (a.setWidth v))
    | .intToFloat, _, some f => some (float f (ofInt f a.toInt))
    | _, _, _ => none
  | _ => none

end Scalar

/-- What the register that an instruction defines gets, if calls answer as given. -/
def Instr.result? (answer : Answers) (registers : Registers) : Instr → Option Scalar
  | .const _ value => value.scalar?
  | .compare _ op left right => ((registers left).compare op (registers right)).map Scalar.ofBool
  | .unary _ .not operand =>
    match registers operand with
    | .bits 1 b => some (.bits 1 (~~~b))
    | _ => none
  | .cast _ source kind type => (registers source).cast kind type
  | .call (some _) ⟨.direct id,args,_,_⟩ => answer id (args.map registers)
  | _ => none

def Instr.exec (answer : Answers) (registers : Registers) (i : Instr) : Option Registers := do
  let dest ← i.dest?
  let x ← i.result? answer registers
  return update registers dest x

/-! ### Numbers -/

namespace Primitive

/-- The number of bits of a primitive that is no float. -/
def width (kind : Primitive) : Nat := (kind.native.bitWidth?).getD 32

/-- Whether the numbers of a primitive have no sign. -/
def isUnsigned (kind : Primitive) : Bool := kind = .char ∨ kind = .boolean

/-- The number that bits stand for. -/
def number (kind : Primitive) (b : BitVec kind.width) : Int := if kind.isUnsigned then b.toNat else b.toInt

variable {source target kind : Primitive}

theorem bitWidth?_native (integral : kind.isFloating = false) : kind.native.bitWidth? = some kind.width := by
  cases kind <;> first | rfl | cases integral

theorem width_le (kind : Primitive) : kind.width ≤ 64 := by
  cases kind <;> decide

/-- A number cut to fewer bits is what is left of its own bits. -/
theorem ofInt_number (narrow : v ≤ kind.width) (b : BitVec kind.width) : BitVec.ofInt v (kind.number b) = b.setWidth v := by
  unfold number
  split
  · rw [BitVec.ofInt_natCast,BitVec.ofNat_toNat]
  · exact BitVec.signExtend_eq_setWidth_of_le b narrow

/-- A number that is given more bits and loses them again is what it was. -/
theorem number_back (wide : source.width ≤ target.width) (b : BitVec source.width) :
    BitVec.ofInt source.width (target.number (.ofInt target.width (source.number b))) = b := by
  rw [ofInt_number wide]
  unfold number
  split
  · rw [BitVec.ofInt_natCast,BitVec.ofNat_toNat,BitVec.setWidth_setWidth_of_le _ wide,BitVec.setWidth_eq]
  · show (b.signExtend target.width).setWidth source.width = b
    ext i inside
    simp only [BitVec.getElem_setWidth,BitVec.getLsbD_signExtend,inside,if_true,lt_of_lt_of_le inside wide,decide_true,Bool.true_and]
    exact BitVec.getLsbD_eq_getElem inside

theorem toInt_eq_number (b : BitVec kind.width) : b.toInt = kind.number b ↔ (kind.isUnsigned = true → b.msb = false) := by
  unfold number
  split
  · rename_i unsigned
    have positive : (0 : Int) < 2 ^ kind.width := Int.pow_pos (by decide)
    rw [BitVec.toInt_eq_msb_cond]
    cases b.msb with
    | false => simp
    | true =>
      refine iff_of_false ?_ (by simp [unsigned])
      rw [if_pos rfl]
      omega
  · rename_i signed
    simp [signed]

theorem toInt_ofInt_number (b : BitVec kind.width) : (BitVec.ofInt long.width (kind.number b)).toInt = kind.number b := by
  unfold number
  split
  · rename_i unsigned
    have small : kind.width ≤ 16 := by cases kind <;> first | decide | cases unsigned
    have least : b.toNat < 2 ^ 16 := Nat.lt_of_lt_of_le b.isLt (Nat.pow_le_pow_right (by decide) small)
    have wide : long.width = 64 := rfl
    rw [BitVec.toInt_ofInt_eq_self (by decide)] <;> rw [wide] <;> omega
  · exact BitVec.toInt_signExtend_of_le kind.width_le

end Primitive

/-- Comparisons with and without a sign agree exactly if both sides have the same top bit. -/
theorem CompareOp.holds?_number {kind : Primitive} (ordered : op ∈ [.lt,.le,.gt,.ge]) (a b : BitVec kind.width) :
    op.holds? a.toInt b.toInt = op.holds? (kind.number a) (kind.number b) ↔ (kind.isUnsigned = true → a.msb = b.msb) := by
  unfold Primitive.number
  split
  · rename_i unsigned
    have left := BitVec.msb_eq_true_iff_two_mul_ge (x := a)
    have right := BitVec.msb_eq_true_iff_two_mul_ge (x := b)
    have leftSmall := a.isLt
    have rightSmall := b.isLt
    simp only [mem_cons,not_mem_nil,or_false] at ordered
    rw [BitVec.toInt_eq_msb_cond,BitVec.toInt_eq_msb_cond]
    generalize 2 ^ kind.width = top at *
    generalize a.msb = leftTop at *
    generalize b.msb = rightTop at *
    rcases ordered with rfl | rfl | rfl | rfl <;> cases leftTop <;> cases rightTop <;> simp [holds?,unsigned] at left right ⊢ <;> omega
  · rename_i signed
    simp [signed]

/-! ### Code that is executed -/

/-- What control sees of a block: its phis, its code and how it ends. -/
structure BlockView where
  phis : List Phi
  code : List Instr
  terminator : Option Terminator

namespace Procedure
variable {p p₁ p' : Procedure} {b c : BlockId} {code code' : List Instr} {type : NativeType} {instr : Register → Instr}

def view? (p : Procedure) (x : BlockId) : Option BlockView := (p.graph.block? x).map fun k => ⟨k.phis,k.code,k.terminator⟩

/-- Code is put behind a block, and no other block changes. -/
def Continues (p : Procedure) (c : BlockId) (code : List Instr) (p' : Procedure) : Prop :=
  ∀ x, p'.view? x = (p.view? x).map fun k => if x = c then { k with code := k.code ++ code } else k

theorem Continues.here {k : BlockView} (continues : p.Continues c code p') (found : p.view? c = some k) :
    p'.view? c = some { k with code := k.code ++ code } := by
  rw [continues c,found,map_some,if_pos rfl]

theorem Continues.trans (first : p.Continues c code p₁) (next : p₁.Continues c code' p') : p.Continues c (code ++ code') p' := by
  intro x
  rw [next x,first x,Option.map_map]
  refine Option.map_congr fun k _ => ?_
  by_cases here : x = c <;> simp [here]

theorem continues_defining (plain : (instr ⟨p.nextRegister⟩).isAlloc = false) :
    p.Continues c [instr ⟨p.nextRegister⟩] (p.defining c type instr) := by
  intro x
  rw [view?,defining,block?_modifyBlock,view?,Option.map_map,Option.map_map]
  refine Option.map_congr fun k _ => ?_
  by_cases here : x = c
  · simp only [here,if_true,comp_apply,Block.code_append k plain]
    rfl
  · simp [here]

theorem isOpen_defining : (p.defining c type instr).IsOpen b ↔ p.IsOpen b := isOpen_modifyBlock fun _ => rfl

end Procedure

theorem Instr.isAlloc_of_result? {answer : Answers} {registers : Registers} {i : Instr} {x : Scalar}
    (given : i.result? answer registers = some x) : i.isAlloc = false := by
  cases i with
  | alloc => cases given
  | _ => rfl

/-- Bits are never of a float type. -/
def Scalar.Fits (t : NativeType) (x : Scalar) : Prop := ∀ w b, x = .bits w b → t.isFloat = false

/-- A register of a function holds a value. -/
def Procedure.Bears (p : Procedure) (registers : Registers) (q : Register × Scalar) : Prop :=
  registers q.1 = q.2 ∧ q.1.index < p.nextRegister ∧ ∀ t ∈ p.registerTypes.get? q.1, q.2.Fits t

/-- Behind a block there is code that can be executed; more can follow, and some registers hold values. -/
structure Loaded (answer : Answers) (p₀ : Procedure) (c : BlockId) (registers₀ : Registers) (held : List (Register × Scalar)) (s : State) : Prop where
  code : ∃ code registers p, p₀.Continues c code p ∧ code.foldlM (exec answer) registers₀ = some registers ∧ s.Stands p c ∧
    p.IsOpen c ∧ ∀ q ∈ held, p.Bears registers q

section
variable {env : Environment} {answer : Answers} {p₀ p : Procedure} {c : BlockId} {s s' : State} {registers₀ : Registers}
  {held : List (Register × Scalar)} {x : Scalar} {r : Register} {type : NativeType} {instr : Register → Instr}

theorem Loaded.start (stands : s.Stands p c) (isOpen : p.IsOpen c) (holds : ∀ q ∈ held, p.Bears registers₀ q) :
    Loaded answer p c registers₀ held s :=
  ⟨[],registers₀,p,fun x => by simp,rfl,stands,isOpen,holds⟩

namespace Loaded
variable (loaded : Loaded answer p₀ c registers₀ held s)
include loaded

theorem defining (here : s.builder.procedure? = some p) (dest : (instr ⟨p.nextRegister⟩).dest? = some ⟨p.nextRegister⟩)
    (result : ∀ {registers}, (∀ q ∈ held, registers q.1 = q.2) → (instr ⟨p.nextRegister⟩).result? answer registers = some x)
    (typed : x.Fits type) :
    Loaded answer p₀ c registers₀ ((⟨p.nextRegister⟩, x) :: held) { s with builder := s.builder.put (p.defining c type instr) } := by
  obtain ⟨code,registers,q,continues,ran,stands,isOpen,holds⟩ := loaded.code
  obtain rfl := mem_unique here stands.procedure
  have given := result fun q inside => (holds q inside).1
  refine ⟨code ++ [instr ⟨p.nextRegister⟩],update registers ⟨p.nextRegister⟩ x,p.defining c type instr,
    continues.trans (Procedure.continues_defining (isAlloc_of_result? given)),?_,stands.put,Procedure.isOpen_defining.mpr isOpen,?_⟩
  · rw [foldlM_append,ran]
    simp [exec,dest,given]
  · have kept : ∀ q ∈ held, q.1 ≠ ⟨p.nextRegister⟩ := fun q inside same => by simpa [same] using (holds q inside).2.1
    have types : (p.defining c type instr).registerTypes = p.registerTypes.insert ⟨p.nextRegister⟩ type := rfl
    refine forall_mem_cons.mpr ⟨⟨update_self ..,lt_succ_self _,fun t found => ?_⟩,fun q inside => ?_⟩
    · rw [types,get?_insert_self] at found
      exact some.inj found ▸ typed
    · obtain ⟨same,bound,known⟩ := holds q inside
      refine ⟨(update_of_ne (kept q inside) ..).trans same,lt_succ_of_lt bound,fun t found => known t ?_⟩
      rwa [types,get?_insert_of_ne (kept q inside)] at found

theorem define (run : Runs (build (Build.define type instr)) env s r s') (dest : (instr r).dest? = some r)
    (result : ∀ {registers}, (∀ q ∈ held, registers q.1 = q.2) → (instr r).result? answer registers = some x)
    (typed : x.Fits type) : Loaded answer p₀ c registers₀ ((r, x) :: held) s' := by
  obtain ⟨_,_,p,-,-,⟨here,cursor⟩,-⟩ := loaded.code
  obtain ⟨_,built,rfl⟩ := runs_build.mp run
  obtain ⟨rfl,-,-,-,rfl⟩ := built.define here cursor
  exact loaded.defining here dest result typed

theorem mono {held' : List (Register × Scalar)} (less : held' ⊆ held) : Loaded answer p₀ c registers₀ held' s := by
  obtain ⟨code,registers,p,continues,ran,stands,isOpen,holds⟩ := loaded.code
  exact ⟨code,registers,p,continues,ran,stands,isOpen,fun q inside => holds q (less inside)⟩

theorem exists_define (env : Environment) (type : NativeType) (instr : Register → Instr) :
    ∃ r s', Runs (build (Build.define type instr)) env s r s' := by
  obtain ⟨_,_,p,-,-,⟨here,cursor⟩,⟨k,found,ended⟩,-⟩ := loaded.code
  have isOpen : openAt (s.builder.put (p.allocRegister type).2).cursor (p.allocRegister type).2 = .ok c := by
    simp [openAt,cursor,show (p.allocRegister type).2.graph.block? c = some k from found,Block.isTerminated,ended]
  have taken := (acts_allocRegister type).inside here
  have appended := (acts_append (instr ⟨p.nextRegister⟩)).inside (p := (p.allocRegister type).2) (Builder.procedure?_put here)
  simp only [append,atOpen,isOpen] at appended
  exact ⟨_,_,runs_build.mpr ⟨_,Build.runs_bind.mpr ⟨_,_,taken,Build.runs_bind.mpr ⟨_,_,appended,Build.runs_pure.mpr ⟨rfl,rfl⟩⟩⟩,rfl⟩⟩

theorem registerType? {b : BitVec w} (inside : (r, .bits w b) ∈ held) :
    ((s.builder.registerType? r).map NativeType.isFloat).getD false = false := by
  obtain ⟨_,_,p,-,-,⟨here,-⟩,-,holds⟩ := loaded.code
  rw [Builder.registerType?,here,bind_some]
  cases found : p.registerTypes.get? r with
  | none => rfl
  | some t => exact (holds _ inside).2.2 t found w b rfl

end Loaded

/-- A step leaves a value of a type in a register, behind code that computes it. -/
def Yields (env : Environment) (answer : Answers) (p₀ : Procedure) (c : BlockId) (registers₀ : Registers) (held : List (Register × Scalar))
    (s : State) (step : Lower Value) (ty : Ty) (x : Scalar) : Prop :=
  ∃ r s', Runs step env s (.ofRegister r ty) s' ∧ Loaded answer p₀ c registers₀ ((r, x) :: held) s'

/-! ### Conversions -/

theorem Scalar.bits_setWidth (same : w = v) (b : BitVec w) : bits v (b.setWidth v) = bits w b := by
  subst same
  rw [BitVec.setWidth_eq]

/-- A conversion between integral primitives gives the number as far as the width of the target allows. -/
theorem Primitive.cast_conversion? {source target : Primitive} (integral : source.isFloating = false) (integral' : target.isFloating = false)
    (b : BitVec source.width) :
    (source.conversion? target = none ∧ Scalar.bits source.width b = .bits target.width (.ofInt _ (source.number b))) ∨
      ∃ kind, source.conversion? target = some kind ∧
        (Scalar.bits source.width b).cast kind target.native = some (.bits target.width (.ofInt _ (source.number b))) := by
  have there := bitWidth?_native integral'
  unfold conversion?
  rw [integral,integral']
  change ((if target.width < source.width then _ else if source.width < target.width then _ else _) = _ ∧ _) ∨
    ∃ kind, (if target.width < source.width then _ else if source.width < target.width then _ else _) = _ ∧ _
  rcases lt_trichotomy target.width source.width with narrow | same | wide
  · refine .inr ⟨.trunc,if_pos narrow,?_⟩
    rw [ofInt_number (le_of_lt narrow)]
    simp [Scalar.cast,there]
  · refine .inl ⟨by simp [same],?_⟩
    rw [ofInt_number (le_of_eq same),Scalar.bits_setWidth same.symm]
  · rw [if_neg (lt_asymm wide),if_pos wide]
    refine .inr ⟨_,rfl,?_⟩
    by_cases unsigned : source = .char ∨ source = .boolean
    · simp [Scalar.cast,there,number,isUnsigned,unsigned,BitVec.ofNat_toNat]
    · simp [Scalar.cast,there,number,isUnsigned,unsigned,BitVec.signExtend]

variable {source target : Primitive}

theorem Lower.lowerCoercion_register (ty : Ty) (location : Location) :
    lowerCoercion (.ofRegister r (.primitive source)) (.primitive target) ty location =
      match source.conversion? target with
      | some kind => do return .ofRegister (← build (Build.cast r kind target.native)) ty
      | none => return .ofRegister r ty := by
  rfl

theorem Loaded.cast {kind : CastKind} {b : BitVec source.width} (loaded : Loaded answer p₀ c registers₀ held s)
    (inside : (r, .bits source.width b) ∈ held) (found : source.conversion? target = some kind)
    (converts : (Scalar.bits source.width b).cast kind target.native = some x) (typed : x.Fits target.native)
    (ty : Ty) (location : Location) :
    Yields env answer p₀ c registers₀ held s (lowerCoercion (.ofRegister r (.primitive source)) (.primitive target) ty location) ty x := by
  obtain ⟨dest,s',defined⟩ := loaded.exists_define env target.native fun dest => .cast dest r kind target.native
  rw [Lower.lowerCoercion_register,found]
  exact ⟨dest,s',runs_bind.mpr ⟨dest,s',defined,runs_pure.mpr ⟨rfl,rfl⟩⟩,
    loaded.define defined rfl (fun holds => by rw [result?,holds _ inside,converts]) typed⟩

theorem Loaded.coercion (env : Environment) (target : Primitive) (loaded : Loaded answer p₀ c registers₀ held s) (integral : source.isFloating = false)
    (integral' : target.isFloating = false) {b : BitVec source.width} (inside : (r, .bits source.width b) ∈ held) (ty : Ty)
    (location : Location) :
    Yields env answer p₀ c registers₀ held s (lowerCoercion (.ofRegister r (.primitive source)) (.primitive target) ty location) ty
      (.bits target.width (.ofInt _ (source.number b))) := by
  rcases Primitive.cast_conversion? integral integral' b with ⟨same,kept⟩ | ⟨kind,found,converts⟩
  · rw [Lower.lowerCoercion_register,same]
    exact ⟨r,s,runs_pure.mpr ⟨rfl,rfl⟩,loaded.mono (cons_subset.mpr ⟨kept ▸ inside,Subset.refl _⟩)⟩
  · exact loaded.cast inside found converts (fun _ _ _ => by cases target <;> first | rfl | cases integral') ty location

/-- A conversion keeps the number that an integral primitive stands for, modulo the width of its target, so that nothing is lost on the
    way to a width that is no smaller and back. What becomes a float is read with a sign, which gives the number itself exactly if it
    has a sign or its top bit is not set. -/
theorem lowerCoercion_keeps_number (loaded : Loaded answer p₀ c registers₀ held s) (integral : source.isFloating = false)
    {b : BitVec source.width} (inside : (r, .bits source.width b) ∈ held) (ty : Ty) (location : Location) : (target.isFloating = false →
      Yields env answer p₀ c registers₀ held s (lowerCoercion (.ofRegister r (.primitive source)) (.primitive target) ty location) ty
        (.bits target.width (.ofInt _ (source.number b))) ∧ (source.width ≤ target.width → Yields env answer p₀ c registers₀ held s (do
        let v ← lowerCoercion (.ofRegister r (.primitive source)) (.primitive target) (.primitive target) location
        lowerCoercion v (.primitive source) ty location) ty (.bits source.width b))) ∧
    ∀ f, target.native.format? = some f →
      Yields env answer p₀ c registers₀ held s (lowerCoercion (.ofRegister r (.primitive source)) (.primitive target) ty location) ty
        (.float f (Binary.ofInt f b.toInt)) ∧ (b.toInt = source.number b ↔ (source.isUnsigned = true → b.msb = false)) := by
  refine ⟨fun integral' => ⟨loaded.coercion env _ integral integral' inside ty location,fun wide => ?_⟩,fun f format => ⟨?_,Primitive.toInt_eq_number b⟩⟩
  · obtain ⟨r₁,s₁,first,loaded⟩ := loaded.coercion env _ integral integral' inside (.primitive target) location
    obtain ⟨r₂,s₂,second,loaded⟩ := loaded.coercion env _ integral' integral mem_cons_self ty location
    rw [Primitive.number_back wide] at loaded
    exact ⟨r₂,s₂,runs_bind.mpr ⟨_,s₁,first,second⟩,loaded.mono (cons_subset_cons _ (subset_cons_self _ _))⟩
  · have floating : target.isFloating = true := by cases target <;> first | rfl | cases format
    have found : source.conversion? target = some .intToFloat := by simp [Primitive.conversion?,integral,floating]
    exact loaded.cast inside found (by simp [Scalar.cast,format]) (fun _ _ same => by cases same) ty location

def charsProcedure : Procedure := .new ⟨0⟩ "f" ⟨[⟨"a",.i16,⟨0⟩⟩,⟨"b",.i16,⟨0⟩⟩],.bool⟩

def charsStart : State :=
  { State.start .development .empty with
    builder := ⟨{ Module.new "m" with procedures := empty.insert ⟨0⟩ charsProcedure },some ⟨0⟩,some ⟨0⟩,true⟩ }

/-- What a step makes of the last character and the first one. -/
def CharsYield (step : Lower Value) (ty : Ty) (x : Scalar) : Prop :=
  Yields ⟨.ofLists [] [] [],.development,.ofDeclarations (.ofLists [] [] [])⟩ (fun _ _ => none) charsProcedure ⟨0⟩
    (fun r => .bits 16 (if r = ⟨0⟩ then 0xFFFF else 0)) [(⟨0⟩, .bits 16 0xFFFF),(⟨1⟩, .bits 16 0)] charsStart step ty x

theorem charsStart_loaded : Loaded (fun _ _ => none) charsProcedure ⟨0⟩ (fun r => .bits 16 (if r = ⟨0⟩ then 0xFFFF else 0))
    [(⟨0⟩, .bits 16 0xFFFF),(⟨1⟩, .bits 16 0)] charsStart := by
  refine .start ⟨rfl,rfl⟩ ⟨_,rfl,rfl⟩ (forall_mem_cons.mpr ⟨⟨rfl,by decide,?_⟩,forall_mem_singleton.mpr ⟨rfl,by decide,?_⟩⟩) <;>
    exact fun t found _ _ _ => some.inj found ▸ rfl

theorem lastChar_becomes_negative :
    CharsYield (lowerCoercion (.ofRegister ⟨0⟩ (.primitive .char)) (.primitive .int) .int .unknown) .int (.bits 32 0xFFFF) ∧
    CharsYield (lowerCoercion (.ofRegister ⟨0⟩ (.primitive .char)) (.primitive .double) .object .unknown) .object
      (.float Binary.double (Binary.ofInt Binary.double (-1))) := by
  have char : Primitive.char.isFloating = false := rfl
  exact ⟨((lowerCoercion_keeps_number (b := 0xFFFF) charsStart_loaded char mem_cons_self .int .unknown).1 rfl).1,
    ((lowerCoercion_keeps_number (b := 0xFFFF) charsStart_loaded char mem_cons_self .object .unknown).2 _ rfl).1⟩

def charsDecls : Declarations :=
  let char := Ty.primitive .char
  .ofLists [] [.topLevel ⟨0⟩ "f" [⟨⟨0⟩,"a",char⟩] (.primitive .double),.topLevel ⟨1⟩ "g" [⟨⟨1⟩,"a",char⟩,⟨⟨2⟩,"b",char⟩] .boolean,
    { FunctionDecl.topLevel ⟨2⟩ "less" [⟨⟨3⟩,"a",char⟩,⟨⟨4⟩,"b",char⟩] .boolean with intrinsic := some .less, isExternal := true }] []

/-- A conversion of a character, and a comparison of two. -/
def charsUnit : SourceUnit :=
  let char := Ty.primitive .char
  ⟨"m",[⟨⟨0⟩,.returnFrom ⟨0⟩ (.typeOp .coercion (.readVar ⟨0⟩ char) (.primitive .double) (.primitive .double))⟩,
    ⟨⟨1⟩,.returnFrom ⟨1⟩ (.call ⟨2⟩ [.readVar ⟨1⟩ char,.readVar ⟨2⟩ char] .boolean)⟩],[]⟩

/-- The last character becomes minus one. -/
theorem charsUnit_converts_negative : ∃ m p k, (lowerModule .development charsDecls [charsUnit]).result = .ok m ∧
    m.procedures.get? ⟨0⟩ = some p ∧ p.graph.block? ⟨0⟩ = some k ∧ k.terminator = some (.ret (some ⟨1⟩)) ∧
    (k.code.foldlM (Instr.exec fun _ _ => none) fun _ => .bits 16 0xFFFF).map (· ⟨1⟩) =
      some (.float Binary.double (Binary.ofInt Binary.double (-1))) ∧
    Binary.ofInt Binary.double (-1) ≠ Binary.ofInt Binary.double (Primitive.char.number 0xFFFF) :=
  exists_block _ _ _ _ _ _ (by decide +kernel)

/-! ### Comparisons -/

variable {kind : Primitive} {intrinsic : Intrinsic} {left right : Register}

theorem Loaded.compare {a b : BitVec w} {x : Bool} (env : Environment) (loaded : Loaded answer p₀ c registers₀ held s)
    (form : intrinsic.form false = .compare op) (first : (left, .bits w a) ∈ held) (second : (right, .bits w b) ∈ held)
    (compares : op.holds? a.toInt b.toInt = some x) (ty : Ty) :
    Yields env answer p₀ c registers₀ held s (lowerIntrinsic intrinsic [left,right] ty) ty (.ofBool x) := by
  obtain ⟨dest,s',defined⟩ := loaded.exists_define env .bool fun dest => .compare dest op left right
  refine ⟨dest,s',?_,loaded.define defined rfl (fun holds => ?_) fun _ _ _ => rfl⟩
  case refine_2 => simp [result?,holds _ first,holds _ second,Scalar.compare,compares]
  refine runs_bind.mpr ⟨left,s,runs_pure.mpr ⟨rfl,rfl⟩,runs_bind.mpr ⟨s,s,runs_get.mpr ⟨rfl,rfl⟩,?_⟩⟩
  dsimp only
  rw [loaded.registerType? first,form]
  exact runs_bind.mpr ⟨right,s,runs_pure.mpr ⟨rfl,rfl⟩,runs_bind.mpr ⟨dest,s',defined,runs_pure.mpr ⟨rfl,rfl⟩⟩⟩

/-- A comparison of two numbers of an integral primitive reads both with a sign, but the comparison of both as numbers of 64 bits reads them
    as they are: they give the same exactly if the primitive has a sign or the top bits agree. -/
theorem lowerIntrinsic_compares_numbers (loaded : Loaded answer p₀ c registers₀ held s) (integral : kind.isFloating = false)
    (ordered : intrinsic ∈ [.less,.lessOrEqual,.greater,.greaterOrEqual]) {a b : BitVec kind.width}
    (first : (left, .bits kind.width a) ∈ held) (second : (right, .bits kind.width b) ∈ held) (ty : Ty) (location : Location) :
    ∃ op x y, intrinsic.form false = .compare op ∧ op.holds? a.toInt b.toInt = some x ∧ op.holds? (kind.number a) (kind.number b) = some y ∧
      Yields env answer p₀ c registers₀ held s (lowerIntrinsic intrinsic [left,right] ty) ty (.ofBool x) ∧
      Yields env answer p₀ c registers₀ held s (do
        let v ← materialize (← lowerCoercion (.ofRegister left (.primitive kind)) .long .long location)
        let w ← materialize (← lowerCoercion (.ofRegister right (.primitive kind)) .long .long location)
        lowerIntrinsic intrinsic [v,w] ty) ty (.ofBool y) ∧
      (x = y ↔ (kind.isUnsigned = true → a.msb = b.msb)) := by
  obtain ⟨op,form,known⟩ : ∃ op, intrinsic.form false = .compare op ∧ op ∈ [CompareOp.lt,.le,.gt,.ge] := by
    simp only [mem_cons,not_mem_nil,or_false] at ordered
    rcases ordered with rfl | rfl | rfl | rfl <;> exact ⟨_,rfl,by decide⟩
  have total : ∀ x y : Int, ∃ z, op.holds? x y = some z := by
    simp only [mem_cons,not_mem_nil,or_false] at known
    rcases known with rfl | rfl | rfl | rfl <;> exact fun _ _ => ⟨_,rfl⟩
  obtain ⟨x,direct⟩ := total a.toInt b.toInt
  obtain ⟨y,widened⟩ := total (kind.number a) (kind.number b)
  refine ⟨op,x,y,form,direct,widened,loaded.compare env form first second direct ty,?_,?_⟩
  · obtain ⟨r₁,s₁,left,loaded⟩ := loaded.coercion env .long integral rfl first .long location
    obtain ⟨r₂,s₂,right,loaded⟩ := loaded.coercion env .long integral rfl (mem_cons_of_mem _ second) .long location
    obtain ⟨r₃,s₃,compared,loaded⟩ := loaded.compare env form (mem_cons_of_mem _ mem_cons_self) mem_cons_self
      (by rw [Primitive.toInt_ofInt_number,Primitive.toInt_ofInt_number,widened]) ty
    refine ⟨r₃,s₃,?_,loaded.mono (cons_subset_cons _ fun _ old => mem_cons_of_mem _ (mem_cons_of_mem _ old))⟩
    exact runs_bind.mpr ⟨_,s₁,left,runs_bind.mpr ⟨r₁,s₁,runs_pure.mpr ⟨rfl,rfl⟩,runs_bind.mpr ⟨_,s₂,right,
      runs_bind.mpr ⟨r₂,s₂,runs_pure.mpr ⟨rfl,rfl⟩,compared⟩⟩⟩⟩
  · rw [← CompareOp.holds?_number known,direct,widened,Option.some.injEq]

theorem lastChar_before_first : CharsYield (lowerIntrinsic .less [⟨0⟩,⟨1⟩] .boolean) .boolean (.ofBool true) ∧ CharsYield (do
      let v ← materialize (← lowerCoercion (.ofRegister ⟨0⟩ (.primitive .char)) .long .long .unknown)
      let w ← materialize (← lowerCoercion (.ofRegister ⟨1⟩ (.primitive .char)) .long .long .unknown)
      lowerIntrinsic .less [v,w] .boolean) .boolean (.ofBool false) := by
  have char : Primitive.char.isFloating = false := rfl
  have less : Intrinsic.less ∈ [Intrinsic.less,.lessOrEqual,.greater,.greaterOrEqual] := mem_cons_self
  obtain ⟨op,x,y,form,direct,widened,first,second,-⟩ := lowerIntrinsic_compares_numbers (a := 0xFFFF) (b := 0) charsStart_loaded char less
    mem_cons_self (mem_cons_of_mem _ mem_cons_self) .boolean .unknown
  cases form
  cases direct
  cases widened
  exact ⟨first,second⟩

/-- The last character comes before the first one. -/
theorem charsUnit_compares_negative : ∃ m p k, (lowerModule .development charsDecls [charsUnit]).result = .ok m ∧
    m.procedures.get? ⟨1⟩ = some p ∧ p.graph.block? ⟨0⟩ = some k ∧ k.terminator = some (.ret (some ⟨2⟩)) ∧
    (k.code.foldlM (Instr.exec fun _ _ => none) fun r => .bits 16 (if r = ⟨0⟩ then 0xFFFF else 0)).map (· ⟨2⟩) = some (.ofBool true) ∧
    ¬ Primitive.char.number 0xFFFF < Primitive.char.number 0 :=
  exists_block _ _ _ _ _ _ (by decide +kernel)

end

end BlockLowering
