import BlockLowering.Json.Code
import BlockLowering.Proofs.LinkedPrograms
/-!
The JSON form of a module gives the module back. A document keeps numbers of 32 bits and literals without
floats; of a module with no others nothing is lost, and functions, globals, static data and blocks are read
back in their order.
-/
namespace BlockLowering
open List Json Register Nat CallSite

/-! ### The numbers and literals of a module -/

def Fits32 (n : Nat) : Prop := n < 2 ^ 32

instance (n : Nat) : Decidable (Fits32 n) := inferInstanceAs (Decidable (n < 2 ^ 32))

def Reference.index : Reference → Nat
  | .proc id => id.index
  | .global id => id.index
  | .data id => id.index

mutual

/-- No float is in a literal, at any depth. -/
def Literal.isExact : Literal → Bool
  | .f32 _ | .f64 _ => false
  | .aggregate parts => allExact parts
  | .undef | .null | .bool _ | .i8 _ | .i16 _ | .i32 _ | .i64 _ | .proc _ | .global _ | .data _ => true

def Literal.allExact : List Literal → Bool
  | [] => true
  | literal :: rest => literal.isExact && allExact rest

end

def Location.numbers (l : Location) : List Nat := [l.file,l.line,l.column]

def Instr.numbers (i : Instr) : List Nat :=
  (i.dest?.toList ++ i.uses).map index ++ i.references.map Reference.index ++
    match i with
    | .element _ _ indices _ => indices
    | _ => []

def Instr.literals : Instr → List Literal
  | .const _ value => [value]
  | _ => []

def Terminator.numbers (t : Terminator) : List Nat :=
  (t.dest?.toList ++ t.uses).map index ++ t.references.map Reference.index ++ t.successors.map BlockId.index

def Phi.numbers (phi : Phi) : List Nat := phi.dest.index :: phi.incoming.flatMap fun e => [e.1.index,e.2.index]

def Block.numbers (k : Block) : List Nat :=
  k.id.index :: (k.phis.flatMap Phi.numbers ++ k.instrs.flatMap Instr.numbers ++
    k.terminator.toList.flatMap Terminator.numbers ++ k.location.numbers ++ k.predecessors.map BlockId.index)

/-- The numbers of the keys of a table and those inside its values. -/
def Table.numbers {κ α : Type} (index : κ → Nat) (inside : α → List Nat) (t : Table κ α) : List Nat :=
  t.entries.flatMap fun e => index e.1 :: inside e.2

def Graph.numbers (g : Graph) : List Nat := g.entry.index :: g.nextBlock :: g.blocks.numbers BlockId.index Block.numbers

def Graph.literals (g : Graph) : List Literal := g.blocks.values.flatMap fun k => k.instrs.flatMap Instr.literals

def Header.numbers (h : Header) : List Nat := h.parameters.map fun p => p.register.index

def Procedure.numbers (p : Procedure) : List Nat :=
  p.id.index :: p.nextRegister :: (p.header.numbers ++ p.graph.numbers ++
    p.registerTypes.numbers index (fun _ => []) ++ p.location.numbers)

def Global.numbers (g : Global) : List Nat := g.id.index :: (g.references.map Reference.index ++ g.location.numbers)

def ExternProcedure.numbers (e : ExternProcedure) : List Nat := e.id.index :: e.header.numbers

def StaticContents.literals : StaticContents → List Literal
  | .string _ => []
  | .array _ elements => elements
  | .aggregate parts => parts

def StaticDatum.numbers (d : StaticDatum) : List Nat := d.id.index :: d.contents.references.map Reference.index

/-- Every number in a module: the numbers of its parts, and those that code and data refer to them by. -/
def Module.numbers (m : Module) : List Nat :=
  m.nextProcedure :: m.nextGlobal :: m.nextDatum :: (m.constructors.map ProcId.index ++
    m.procedures.numbers ProcId.index Procedure.numbers ++ m.externs.numbers ProcId.index ExternProcedure.numbers ++
    m.globals.numbers GlobalId.index Global.numbers ++ m.data.numbers DataId.index StaticDatum.numbers)

/-- Every literal in a module: in its code, in the initial values of globals and in static data. -/
def Module.literals (m : Module) : List Literal :=
  m.procedures.values.flatMap (fun p => p.graph.literals) ++ m.globals.values.flatMap (fun g => g.initializer.toList) ++
    m.data.values.flatMap fun d => d.contents.literals

/-! ### Readers -/

namespace Json
variable {α β : Type} {read : Json → Option α} {encode : α → Json} {names : List String}
  {members : List (String × Json)} {tag : String} {n : Nat}

@[simp] theorem fields?_obj : (obj members).fields? names = some (names.map fun name => (members.lookup name).getD .null) := rfl

@[simp] theorem namedFields?_obj : (obj members).namedFields? names = some (names.map fun name => (members.lookup name).getD .null) := rfl

@[simp] theorem lookup_member {name key : String} {value : Json} :
    lookup name ((key, value) :: members) = if name = key then some value else lookup name members := by
  by_cases same : name = key <;> simp [same,lookup_cons,beq_eq_false_iff_ne.mpr]

@[simp] theorem variant?_tagged {contents : Json} : (tagged tag contents).variant? = some (tag, contents) := rfl

theorem tagged_bind {contents : Json} {f : String × Json → Option α} : ((tagged tag contents).variant? >>= f) = f (tag, contents) := rfl

@[simp] theorem variant?_str : (str tag).variant? = some (tag, .null) := rfl

@[simp] theorem string?_str : (str tag).string? = some tag := rfl

@[simp] theorem bool?_bool {b : Bool} : (bool b).bool? = some b := rfl

@[simp] theorem plain?_null {value : α} : null.plain? value = some value := rfl

theorem signed?_int {i : Int} (bits : Nat) (least : -2 ^ (bits - 1) ≤ i) (below : i < 2 ^ (bits - 1)) : (int i).signed? bits = some i :=
  if_pos ⟨least,Int.le_sub_one_of_lt below⟩

@[simp] theorem unsigned?_nat (fits : Fits32 n) : (nat n).unsigned? 32 = some n := by
  have below : (n : Int) ≤ Int.pow 2 32 - 1 := Int.le_sub_one_of_lt (Int.ofNat_lt.mpr fits)
  rw [unsigned?,nat,intWithin?,if_pos ⟨Int.natCast_nonneg n,below⟩]
  rfl

@[simp] theorem id?_nat {make : Nat → α} (fits : Fits32 n) : (nat n).id? make = some (make n) := by
  rw [id?,unsigned?_nat fits]
  rfl

theorem mapM_map {γ : Type} {write : α → γ} {back : γ → Option β} {view : α → β} {items : List α}
    (each : ∀ x ∈ items, back (write x) = some (view x)) : (items.map write).mapM back = some (items.map view) := by
  induction items with
  | nil => rfl
  | cons x rest ih =>
    have first := each x (.head _)
    have others := ih fun y inside => each y (.tail _ inside)
    simp [first,others]

@[simp] theorem list?_list {items : List α} (each : ∀ x ∈ items, read (encode x) = some x) :
    (list encode items).list? read = some items := by
  have same := mapM_map (β := α) each
  rwa [map_id'] at same

@[simp] theorem option?_option {value : Option α} (present : ∀ x, encode x ≠ null)
    (each : ∀ x ∈ value, read (encode x) = some x) : (option encode value).option? read = some value := by
  cases value with
  | none => rfl
  | some x =>
    show (encode x).option? read = some (some x)
    rw [option?.eq_def]
    split
    · exact absurd ‹_› (present x)
    · rw [each x rfl]
      rfl

theorem head?_toDigits (positive : 0 < n) : (toDigits 10 n).head? ≠ some '0' := by
  induction n using Nat.strongRecOn with
  | ind n ih =>
    by_cases small : n < 10
    · have single : ∀ d < 10, 0 < d → d.digitChar ≠ '0' := by decide
      rw [toDigits_of_lt_base small]
      exact fun zero => single n small positive (Option.some.inj zero)
    · have earlier := ih (n / 10) (by omega) (by omega)
      obtain ⟨first,rest,digits⟩ := exists_cons_of_ne_nil (@toDigits_ne_nil (n / 10) 10)
      rw [digits] at earlier
      rw [toDigits_of_base_le (by decide) (by omega),digits]
      exact earlier

theorem indexText?_toString (fits : Fits32 n) : indexText? (toString n) = some n := by
  have text : (toString n).toList = toDigits 10 n := toList_repr
  have digits : (toDigits 10 n).all Char.isDigit = true :=
    all_eq_true.mpr fun c inside => isDigit_of_mem_toDigits (by decide) (by decide) inside
  have leading : ¬ (1 < (toDigits 10 n).length ∧ (toDigits 10 n).head? = some '0') := by
    rintro ⟨long,zero⟩
    refine head?_toDigits (pos_of_ne_zero ?_) zero
    rintro rfl
    simp at long
  have value : (toDigits 10 n).foldl (fun n c => n * 10 + (c.toNat - '0'.toNat)) 0 = n := by
    have same : ofDigitChars 10 (toDigits 10 n) 0 = n := ofDigitChars_toDigits (by decide) (by decide)
    simpa only [ofDigitChars,mul_comm 10] using same
  have started : (toDigits 10 n).isEmpty = false := by simp [toDigits_ne_nil]
  unfold indexText?
  rw [text]
  simp only [started,digits,leading,value]
  exact if_pos fits

end Json

/-! ### Parts of code -/

section
variable {κ α : Type} [DecidableEq κ]

namespace Table

theorem ofList_entries (t : Table κ α) : ofList t.entries = t := by
  have same := entries_ofList t.nodup
  cases t
  exact mk.injEq .. ▸ same

theorem ofJson?_toJson {index : κ → Nat} {inside : α → List Nat} {encode : α → Json} {read : Json → Option α}
    {t : Table κ α} (make : Nat → κ) (back : ∀ k, make (index k) = k) (fits : ∀ n ∈ t.numbers index inside, Fits32 n)
    (each : ∀ v ∈ t.values, (∀ n ∈ inside v, Fits32 n) → read (encode v) = some v) :
    Table.ofJson? make read (t.toJson index encode) = some t := by
  simp only [numbers,forall_mem_flatMap,forall_mem_cons] at fits
  have members : (t.toJson index encode).indexed? read = some (t.entries.map fun e => (index e.1, e.2)) := by
    refine mapM_map fun e there => ?_
    rw [indexText?_toString (fits e there).1,each e.2 (mem_map_of_mem there) (fits e there).2]
    rfl
  rw [ofJson?,members]
  simp [Function.comp_def,back,ofList_entries]

end Table

end

namespace NativeType

mutual

theorem readWithin_toJson : (t : NativeType) → (depth : Nat) → t.toJson.depth ≤ depth → Json.readWithin readStep depth t.toJson = some t
  | .function params result, depth + 1, enough => by
    simp only [toJson,Json.tagged,Json.depth,Json.membersDepth] at enough
    have each := mapM_toJsons params depth (by omega)
    have last := readWithin_toJson result depth (by omega)
    simp [Json.readWithin,toJson,readStep,Json.list?,each,last]
  | .struct name fields, depth + 1, enough => by
    simp only [toJson,Json.tagged,Json.depth,Json.membersDepth] at enough
    have each := mapM_toJsons fields depth (by omega)
    simp [Json.readWithin,toJson,readStep,Json.list?,each]
  | .void, depth + 1, _ | .bool, depth + 1, _ | .i8, depth + 1, _ | .i16, depth + 1, _ | .i32, depth + 1, _
  | .i64, depth + 1, _ | .f32, depth + 1, _ | .f64, depth + 1, _ | .ptr, depth + 1, _ => by
    rfl

theorem mapM_toJsons : (ts : List NativeType) → (depth : Nat) → itemsDepth (toJsons ts) ≤ depth →
    (toJsons ts).mapM (readWithin readStep depth) = some ts
  | [], _, _ => rfl
  | t :: rest, depth, enough => by
    simp only [toJsons,itemsDepth,Nat.max_le] at enough
    simp [toJsons,readWithin_toJson t depth enough.1,mapM_toJsons rest depth enough.2]

end

@[simp] theorem ofJson?_toJson (t : NativeType) : ofJson? t.toJson = some t := readWithin_toJson t _ (le_refl _)

end NativeType

namespace Literal

mutual

theorem readWithin_toJson : (l : Literal) → (depth : Nat) → (∀ r ∈ l.references, Fits32 r.index) → l.isExact = true →
    l.toJson.depth ≤ depth → Json.readWithin readStep depth l.toJson = some l
  | .aggregate parts, depth + 1, fits, exact, enough => by
    simp only [toJson,Json.tagged,Json.depth,Json.membersDepth] at enough
    have each := mapM_toJsons parts depth fits exact (by omega)
    simp [Json.readWithin,toJson,readStep,Json.list?,each]
  | .proc id, depth + 1, fits, _, _ | .global id, depth + 1, fits, _, _ | .data id, depth + 1, fits, _, _ => by
    have fits : Fits32 id.index := fits _ (.head _)
    simp [Json.readWithin,toJson,readStep,fits]
  | .i8 value, depth + 1, _, _, _ => by
    simp [Json.readWithin,toJson,readStep,Json.signed?_int 8 value.le_toInt value.toInt_lt]
  | .i16 value, depth + 1, _, _, _ => by
    simp [Json.readWithin,toJson,readStep,Json.signed?_int 16 value.le_toInt value.toInt_lt]
  | .i32 value, depth + 1, _, _, _ => by
    simp [Json.readWithin,toJson,readStep,Json.signed?_int 32 value.le_toInt value.toInt_lt]
  | .i64 value, depth + 1, _, _, _ => by
    simp [Json.readWithin,toJson,readStep,Json.signed?_int 64 value.le_toInt value.toInt_lt]
  | .undef, depth + 1, _, _, _ | .null, depth + 1, _, _, _ | .bool _, depth + 1, _, _, _ => by
    simp [Json.readWithin,toJson,readStep]
  | .f32 _, _, _, exact, _ | .f64 _, _, _, exact, _ => nomatch exact

theorem mapM_toJsons : (ls : List Literal) → (depth : Nat) → (∀ r ∈ allReferences ls, Fits32 r.index) → allExact ls = true →
    itemsDepth (toJsons ls) ≤ depth → (toJsons ls).mapM (readWithin readStep depth) = some ls
  | [], _, _, _, _ => rfl
  | l :: rest, depth, fits, exact, enough => by
    simp only [toJsons,itemsDepth,Nat.max_le] at enough
    simp only [allReferences,forall_mem_append] at fits
    simp only [allExact,Bool.and_eq_true] at exact
    simp [toJsons,readWithin_toJson l depth fits.1 exact.1 enough.1,mapM_toJsons rest depth fits.2 exact.2 enough.2]

end

@[simp] theorem ofJson?_toJson {l : Literal} (fits : ∀ r ∈ l.references, Fits32 r.index) (exact : l.isExact = true) :
    ofJson? l.toJson = some l := readWithin_toJson l _ fits exact (le_refl _)

theorem mem_allReferences {l : Literal} {ls : List Literal} {r : Reference} (inside : l ∈ ls) (own : r ∈ l.references) :
    r ∈ allReferences ls := by
  induction ls with
  | nil => cases inside
  | cons first rest ih =>
    rw [allReferences,mem_append]
    rcases mem_cons.mp inside with rfl | later
    · exact .inl own
    · exact .inr (ih later)

theorem toJson_ne_null (l : Literal) : l.toJson ≠ .null := by cases l <;> exact nofun

end Literal

@[simp] theorem Register.ofJson?_toJson {r : Register} (fits : Fits32 r.index) : ofJson? r.toJson = some r :=
  id?_nat fits

@[simp] theorem BlockId.ofJson?_toJson {b : BlockId} (fits : Fits32 b.index) : ofJson? b.toJson = some b :=
  id?_nat fits

theorem Location.ofJson?_toJson {l : Location} (fits : ∀ n ∈ l.numbers, Fits32 n) : ofJson? l.toJson = some l := by
  simp only [numbers,forall_mem_cons] at fits
  simp [ofJson?,toJson,fits]

@[simp] theorem Signature.ofJson?_toJson (s : Signature) : ofJson? s.toJson = some s := by
  simp [ofJson?,toJson]

@[simp] theorem Lifetime.named?_named (l : Lifetime) : (named names l).named? names = some l := by cases l <;> rfl

@[simp] theorem BinaryOp.named?_named (op : BinaryOp) : (named names op).named? names = some op := by cases op <;> rfl

@[simp] theorem UnaryOp.named?_named (op : UnaryOp) : (named names op).named? names = some op := by cases op <;> rfl

@[simp] theorem CompareOp.named?_named (op : CompareOp) : (named names op).named? names = some op := by cases op <;> rfl

@[simp] theorem CastKind.named?_named (kind : CastKind) : (named names kind).named? names = some kind := by cases kind <;> rfl

@[simp] theorem Linkage.named?_named (l : Linkage) : (named names l).named? names = some l := by cases l <;> rfl

theorem Register.option?_toJson {r : Option Register} (fits : ∀ x ∈ r, Fits32 x.index) :
    (option toJson r).option? ofJson? = some r :=
  option?_option (fun _ => nofun) fun x there => ofJson?_toJson (fits x there)

theorem CallSite.read_toJson {site : CallSite} (uses : ∀ r ∈ site.uses, Fits32 r.index)
    (refers : ∀ r ∈ site.callee.references, Fits32 r.index) :
    read site.callee.toJson (.list toJson site.args) site.signature.toJson
      (.named Lifetime.names site.lifetime) = some site := by
  obtain ⟨callee,args,signature,lifetime⟩ := site
  have both : Callee.ofJson? callee.toJson = some callee ∧ ∀ r ∈ args, Fits32 r.index := by
    cases callee with
    | direct id =>
      have fits : Fits32 id.index := refers _ (.head _)
      exact ⟨by simp [Callee.ofJson?,Callee.toJson,fits],uses⟩
    | indirect pointer =>
      simp only [CallSite.uses,forall_mem_cons] at uses
      exact ⟨by simp [Callee.ofJson?,Callee.toJson,uses.1],uses.2⟩
  have arguments : (list toJson args).list? ofJson? = some args :=
    list?_list fun r inside => ofJson?_toJson (both.2 r inside)
  simp [read,both.1,arguments]

namespace Instr

theorem ofJson?_toJson {i : Instr} (fits : ∀ n ∈ i.numbers, Fits32 n) (exact : ∀ l ∈ i.literals, l.isExact = true) :
    Instr.ofJson? i.toJson = some i := by
  simp only [numbers,forall_mem_append,map_append,forall_mem_map] at fits
  obtain ⟨⟨⟨defines,uses⟩,refers⟩,indices⟩ := fits
  cases i with
  | const dest value =>
    rw [ofJson?,toJson,tagged_bind]
    simp [defines dest (.head _),Literal.ofJson?_toJson refers (exact value (.head _))]
  | element dest ptr steps type =>
    have steps : (list .nat steps).list? (unsigned? 32) = some steps :=
      list?_list fun n inside => unsigned?_nat (indices n inside)
    rw [ofJson?,toJson,tagged_bind]
    simp_all [dest?,Instr.uses]
  | call dest site =>
    have dest := option?_toJson (r := dest) fun x there => defines x (Option.mem_toList.mpr there)
    have site := read_toJson uses refers
    rw [ofJson?,toJson,tagged_bind]
    simp [members,dest,site]
  | alloc | load | store | binary | unary | compare | cast | landingPad =>
    rw [ofJson?,toJson,tagged_bind]
    simp_all [dest?,Instr.uses]

end Instr

namespace Terminator

theorem ofJson?_toJson {t : Terminator} (fits : ∀ n ∈ t.numbers, Fits32 n) : Terminator.ofJson? t.toJson = some t := by
  simp only [numbers,forall_mem_append,map_append,forall_mem_map] at fits
  obtain ⟨⟨⟨defines,uses⟩,refers⟩,aims⟩ := fits
  cases t with
  | branch target => simp [ofJson?,toJson,aims target mem_cons_self]
  | condBranch condition onTrue onFalse =>
    simp_all [ofJson?,toJson,Terminator.uses,successors]
  | ret value =>
    have value := option?_toJson (r := value) fun x there => uses x (Option.mem_toList.mpr there)
    simp [ofJson?,toJson,value]
  | invoke dest site normal unwind =>
    have dest := option?_toJson (r := dest) fun x there => defines x (Option.mem_toList.mpr there)
    have site := read_toJson uses refers
    simp_all [ofJson?,toJson,members,successors]
  | unreachable => rfl

end Terminator

/-! ### Functions, globals and data -/

theorem Phi.ofJson?_toJson {phi : Phi} (fits : ∀ n ∈ phi.numbers, Fits32 n) : Phi.ofJson? phi.toJson = some phi := by
  simp only [numbers,forall_mem_cons,forall_mem_flatMap] at fits
  obtain ⟨dest,edges⟩ := fits
  have incoming : (list (fun e : BlockId × Register => .arr [e.1.toJson,e.2.toJson]) phi.incoming).list?
      (pair? BlockId.ofJson? Register.ofJson?) = some phi.incoming := by
    refine list?_list fun e inside => ?_
    obtain ⟨source,value,-⟩ := edges e inside
    simp [pair?,source,value]
  simp [ofJson?,toJson,dest,incoming]

theorem Block.ofJson?_toJson {k : Block} (fits : ∀ n ∈ k.numbers, Fits32 n)
    (exact : ∀ i ∈ k.instrs, ∀ l ∈ i.literals, l.isExact = true) : Block.ofJson? k.toJson = some k := by
  simp only [numbers,forall_mem_cons,forall_mem_append,forall_mem_flatMap,forall_mem_map] at fits
  obtain ⟨id,⟨⟨⟨phis,instrs⟩,terminator⟩,location⟩,predecessors⟩ := fits
  have phis := list?_list fun phi inside => Phi.ofJson?_toJson (phis phi inside)
  have instrs := list?_list fun i inside => Instr.ofJson?_toJson (instrs i inside) (exact i inside)
  have terminator := option?_option (fun t : Terminator => by cases t <;> exact nofun) fun t there =>
    Terminator.ofJson?_toJson (terminator t (Option.mem_toList.mpr there))
  have predecessors := list?_list fun b inside => BlockId.ofJson?_toJson (predecessors b inside)
  have label : (option .str k.label).option? string? = some k.label :=
    option?_option (fun _ => nofun) fun _ _ => rfl
  simp [ofJson?,toJson,id,label,phis,instrs,terminator,Location.ofJson?_toJson location,predecessors]

theorem Graph.ofJson?_toJson {g : Graph} (fits : ∀ n ∈ g.numbers, Fits32 n) (exact : ∀ l ∈ g.literals, l.isExact = true) :
    Graph.ofJson? g.toJson = some g := by
  simp only [numbers,literals,forall_mem_cons,forall_mem_flatMap] at fits exact
  obtain ⟨entry,next,blocks⟩ := fits
  have blocks := Table.ofJson?_toJson BlockId.mk (fun _ => rfl) blocks fun k there small => Block.ofJson?_toJson small (exact k there)
  simp [ofJson?,toJson,blocks,entry,next]

theorem Header.ofJson?_toJson {h : Header} (fits : ∀ n ∈ h.numbers, Fits32 n) : Header.ofJson? h.toJson = some h := by
  simp only [numbers,forall_mem_map] at fits
  have parameters : (list Parameter.toJson h.parameters).list? Parameter.ofJson? = some h.parameters :=
    list?_list fun p inside => by simp [Parameter.ofJson?,Parameter.toJson,fits p inside]
  simp [ofJson?,toJson,parameters]

theorem Procedure.ofJson?_toJson {p : Procedure} (fits : ∀ n ∈ p.numbers, Fits32 n)
    (exact : ∀ l ∈ p.graph.literals, l.isExact = true) : Procedure.ofJson? p.toJson = some p := by
  simp only [numbers,forall_mem_cons,forall_mem_append] at fits
  obtain ⟨id,next,⟨⟨header,graph⟩,types⟩,location⟩ := fits
  have types := Table.ofJson?_toJson Register.mk (fun _ => rfl) types fun t _ _ => NativeType.ofJson?_toJson t
  simp [ofJson?,toJson,id,next,Header.ofJson?_toJson header,Graph.ofJson?_toJson graph exact,types,
    Location.ofJson?_toJson location]

theorem Global.ofJson?_toJson {g : Global} (fits : ∀ n ∈ g.numbers, Fits32 n)
    (exact : ∀ l ∈ g.initializer.toList, l.isExact = true) : Global.ofJson? g.toJson = some g := by
  simp only [numbers,forall_mem_cons,forall_mem_append,forall_mem_map] at fits
  obtain ⟨id,refers,location⟩ := fits
  have initializer : (option Literal.toJson g.initializer).option? Literal.ofJson? = some g.initializer := by
    refine option?_option Literal.toJson_ne_null fun l there => ?_
    refine Literal.ofJson?_toJson (fun r own => refers r ?_) (exact l (Option.mem_toList.mpr there))
    rwa [references,there]
  simp [ofJson?,toJson,id,initializer,Location.ofJson?_toJson location]

theorem ExternProcedure.ofJson?_toJson {e : ExternProcedure} (fits : ∀ n ∈ e.numbers, Fits32 n) :
    ExternProcedure.ofJson? e.toJson = some e := by
  simp only [numbers,forall_mem_cons] at fits
  simp [ofJson?,toJson,fits.1,Header.ofJson?_toJson fits.2]

theorem StaticDatum.ofJson?_toJson {d : StaticDatum} (fits : ∀ n ∈ d.numbers, Fits32 n)
    (exact : ∀ l ∈ d.contents.literals, l.isExact = true) : StaticDatum.ofJson? d.toJson = some d := by
  simp only [numbers,forall_mem_cons,forall_mem_map] at fits
  obtain ⟨id,refers⟩ := fits
  have contents : StaticContents.ofJson? d.contents.toJson = some d.contents := by
    cases kind : d.contents with
    | string value => simp [StaticContents.ofJson?,StaticContents.toJson]
    | array _ parts | aggregate parts =>
      rw [kind] at refers exact
      have parts : (list Literal.toJson parts).list? Literal.ofJson? = some parts := list?_list fun l inside =>
        Literal.ofJson?_toJson (fun r own => refers r (Literal.mem_allReferences inside own)) (exact l inside)
      simp [StaticContents.ofJson?,StaticContents.toJson,parts]
  simp [ofJson?,toJson,id,contents]

/-- A module whose numbers have 32 bits and whose literals are no floats is read back from its JSON form, with its
    functions, globals, static data and blocks in their order. -/
theorem Module.json_gives_module_back (m : Module) (fits : ∀ n ∈ m.numbers, Fits32 n) (exact : ∀ l ∈ m.literals, l.isExact = true) :
    Module.ofJson? m.toJson = some m := by
  simp only [numbers,literals,forall_mem_cons,forall_mem_append,forall_mem_flatMap,
    forall_mem_map] at fits exact
  obtain ⟨nextProcedure,nextGlobal,nextDatum,⟨⟨⟨constructors,procedures⟩,externs⟩,globals⟩,data⟩ := fits
  obtain ⟨⟨code,initial⟩,contents⟩ := exact
  have procedures := Table.ofJson?_toJson ProcId.mk (fun _ => rfl) procedures fun p there small => Procedure.ofJson?_toJson small (code p there)
  have externs := Table.ofJson?_toJson ProcId.mk (fun _ => rfl) externs fun e _ small => ExternProcedure.ofJson?_toJson small
  have globals := Table.ofJson?_toJson GlobalId.mk (fun _ => rfl) globals fun g there small => Global.ofJson?_toJson small (initial g there)
  have data := Table.ofJson?_toJson DataId.mk (fun _ => rfl) data fun d there small => StaticDatum.ofJson?_toJson small (contents d there)
  have constructors : (Json.list (fun id : ProcId => .nat id.index) m.constructors).list? (Json.id? ProcId.mk) =
      some m.constructors := Json.list?_list fun id inside => Json.id?_nat (constructors id inside)
  simp [ofJson?,toJson,procedures,externs,globals,data,constructors,nextProcedure,nextGlobal,nextDatum]

theorem Module.json_gives_module_back_registry : ∃ m, (lowerModule .development registryDecls [registryUnit]).result = .ok m ∧
    (∀ n ∈ m.numbers, Fits32 n) ∧ (∀ l ∈ m.literals, l.isExact = true) ∧ Module.ofJson? m.toJson = some m := by
  obtain ⟨m,lowered,passed⟩ := exists_module .development registryDecls [registryUnit]
    (fun m => decide ((∀ n ∈ m.numbers, Fits32 n) ∧ ∀ l ∈ m.literals, l.isExact = true)) (by decide +kernel)
  obtain ⟨fits,exact⟩ := of_decide_eq_true passed
  exact ⟨m,lowered,fits,exact,json_gives_module_back m fits exact⟩

end BlockLowering
