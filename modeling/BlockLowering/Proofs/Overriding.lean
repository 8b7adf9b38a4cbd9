import BlockLowering.Proofs.Effects
import BlockLowering.Proofs.MethodTables
import BlockLowering.Proofs.ObjectBodies
/-!
What method tables promise to calls. A subclass refines the table of its superclass entry by entry, every
method has a slot of its own in the table of its class, and the code of a call reads within the type
descriptor. A method takes the slot of the one it overrides as long as the table that its class inherits
still lists that one; where a class in between has overridden it, the method gets a new slot.
-/
namespace BlockLowering
open Lower Option Relation TransGen Builder Except
variable {s s' : State} {env : Environment} {f : FunctionId} {args : List Register} {target : CallTarget} {i : Nat} {superclass : ClassId}

/-! ### The code of a call -/

/-- Instructions are appended to the block at the cursor. -/
def State.Appends (s s' : State) (code : List Instr) : Prop :=
  ∃ p c k p' k', s.builder.procedure? = some p ∧ s.builder.cursor = some c ∧ p.graph.block? c = some k ∧
    s'.builder.procedure? = some p' ∧ s'.builder.cursor = some c ∧ p'.graph.block? c = some k' ∧ k'.instrs = k.instrs ++ code

/-- The address of an element is within the type that it is taken from. -/
def Instr.InBounds : Instr → Prop
  | .element _ _ [i] (.struct _ elements) => i < elements.length
  | .element .. => False
  | _ => True

theorem State.Appends.trans {s'' : State} {code code' : List Instr} (first : s.Appends s' code)
    (next : s'.Appends s'' code') : s.Appends s'' (code ++ code') := by
  obtain ⟨p,c,k,p₁,k₁,here,cursor,found,here₁,cursor₁,found₁,instrs⟩ := first
  obtain ⟨q,d,j,p₂,k₂,there,cursor',found',here₂,cursor₂,found₂,instrs'⟩ := next
  obtain rfl := mem_unique here₁ there
  obtain rfl := mem_unique cursor₁ cursor'
  obtain rfl := mem_unique found₁ found'
  exact ⟨p,c,k,p₂,k₂,here,cursor,found,here₂,cursor₂,found₂,by rw [instrs',instrs,List.append_assoc]⟩

theorem Lower.Runs.appends_define {type : NativeType} {instr : Register → Instr}
    {r : Register} (run : Runs (build (Build.define type instr)) env s r s') : s.Appends s' [instr r] := by
  obtain ⟨b,built,rfl⟩ := runs_build.mp run
  have stands : ∃ p c, s.builder.procedure? = some p ∧ s.builder.cursor = some c := by
    obtain ⟨_,_,taken,built⟩ := Build.runs_bind.mp built
    obtain ⟨_,_,appended,-⟩ := Build.runs_bind.mp built
    obtain ⟨p,here,-,rfl⟩ := (Action.acts_allocRegister type).runs taken
    obtain ⟨-,c,-,-,cursor,-⟩ := (Action.acts_append _).runs_atOpen appended
    exact ⟨p,c,here,put_cursor.symm.trans cursor⟩
  obtain ⟨p,c,here,cursor⟩ := stands
  obtain ⟨rfl,k,found,-,rfl⟩ := built.define here cursor
  refine ⟨p,c,k,_,k.append _,here,cursor,found,procedure?_put here,by rw [put_cursor,cursor],?_,rfl⟩
  show (Table.modify _ c _).get? c = _
  rw [Table.get?_modify,if_pos rfl]
  exact congrArg (Option.map _) found

theorem Lower.Runs.appends_tableTarget {f : FunctionDecl}
    (run : Runs (tableTarget f args) env s target s') :
    ∃ owner body slot type receiver head descriptor entry pointer code, f.owner = some owner ∧
      env.layout.bodyType owner = .ok body ∧ env.layout.vtableSlot f.id = .ok slot ∧ env.layout.descriptorType owner = .ok type ∧
      s.Appends s' [.element head receiver [0] body,.load descriptor head .ptr,
        .element entry descriptor [Layout.vtableBase + slot] type,.load pointer entry .ptr,
        .cast code pointer .bitcast f.nativeHeader.signature.type] := by
  unfold tableTarget receiverDescriptor indirectTarget at run
  cases args with
  | nil => simp [runs_bind] at run
  | cons receiver rest =>
    simp only [runs_bind,runs_lift,runs_read,runs_build_bind,and_assoc,exists_and_left,
      exists_eq_left] at run
    obtain ⟨descriptor,s₂,⟨owner,owned,body,object,head,s₁,first,second⟩,_,owned',slot,placed,type,described,
      pointer,s₄,⟨entry,s₃,third,fourth⟩,code,s₅,fifth,last⟩ := run
    obtain ⟨-,rfl⟩ := runs_pure.mp last
    obtain rfl := ok.inj (owned.symm.trans owned')
    have own : f.owner = some owner := by
      unfold ownerOf at owned
      cases known : f.owner with
      | none => simp [known] at owned
      | some found => simpa [known] using owned
    exact ⟨owner,body,slot,type,receiver,head,descriptor,entry,pointer,code,own,object,placed,described,
      first.appends_define.trans (second.appends_define.trans (third.appends_define.trans
        (fourth.appends_define.trans fifth.appends_define)))⟩

namespace Layout
variable {decls : Declarations} {l : Layout} {id top : ClassId} {c t : ClassDecl} {m o : FunctionDecl} {table : List FunctionId}

theorem vtableSlot_eq (found : l.slots.get? f = some i) : l.vtableSlot f = .ok i := by
  unfold vtableSlot
  rw [found]

theorem slots_of_vtableSlot (found : l.vtableSlot f = .ok i) : l.slots.get? f = some i := by
  unfold vtableSlot at found
  cases known : l.slots.get? f with
  | none => simp [known] at found
  | some slot => simpa [known] using found

theorem descriptorType_eq (found : l.vtables.get? id = some table) :
    ∃ name elements, l.descriptorType id = .ok (.struct name elements) ∧ elements.length = vtableBase + table.length := by
  unfold descriptorType
  rw [found]
  exact ⟨_,_,rfl,by simp [vtableBase]⟩

/-! ### Superclasses -/

theorem inheritedTable_eq (named : c.superclass = some superclass)
    (found : l.vtables.get? superclass = some table) : l.inheritedTable c = table := by
  simp [inheritedTable,named,found]

theorem refines_superclass {s : ClassDecl} (named : decls.Named) (acyclic : decls.Acyclic)
    (outside : decls.OverridesOutside) (declared : decls.classes.get? id = some c) (extends' : c.superclass = some superclass)
    (declared' : decls.classes.get? superclass = some s) : ∃ table inherited, (ofDeclarations decls).vtables.get? id = some table ∧
      (ofDeclarations decls).vtables.get? superclass = some inherited ∧ inherited.length ≤ table.length ∧
      ∀ (i : Nat) x, inherited[i]? = some x →
        table[i]? = some x ∨ ∃ m, decls.Virtual id m ∧ m.overrides = some x ∧ table[i]? = some m.id := by
  have sound := tablesSound_ofDeclarations named acyclic
  have above := sound.table declared' (has_ofDeclarations declared')
  refine ⟨_,_,sound.table declared (has_ofDeclarations declared),above,?_,fun i x there => ?_⟩
  · rw [inheritedTable_eq extends' above]
    exact length_le_placeMethods
  · rw [inheritedTable_eq extends' above]
    rcases placeMethods_refines there fun m inside m' inside' =>
        outside id m' m (mem_virtualMethods.mp inside').2 (mem_virtualMethods.mp inside).2 with stays | ⟨m,inside,overrides,taken⟩
    · exact .inl stays
    · exact .inr ⟨m,(mem_virtualMethods.mp inside).2,overrides,taken⟩

/-- A method that no method of its class overrides is in the table of the class, at its slot. -/
theorem exists_slot (named : decls.Named) (acyclic : decls.Acyclic) (declared : decls.classes.get? id = some c)
    (concrete : c.kind ≠ .interface) (virtual : decls.Virtual id m) (untouched : ∀ m', decls.Virtual id m' → m'.overrides ≠ some m.id) :
    ∃ table slot, (ofDeclarations decls).vtables.get? id = some table ∧
      (ofDeclarations decls).slots.get? m.id = some slot ∧ table[slot]? = some m.id := by
  have sound := tablesSound_ofDeclarations named acyclic
  have has := has_ofDeclarations declared
  have inside : m ∈ virtualMethods decls c id := mem_virtualMethods.mpr ⟨concrete,virtual⟩
  obtain ⟨slot,noted,there⟩ := placeMethods_holds (sound.fresh named acyclic declared) inside
    fun m' inside' => untouched m' (mem_virtualMethods.mp inside').2
  exact ⟨_,slot,sound.table declared has,(sound.slots declared has inside).trans noted,there⟩

theorem tableTarget_inBounds {s : State} {slot : Nat}
    (found : (ofDeclarations decls).vtables.get? id = some table) (owner : m.owner = some id)
    (noted : (ofDeclarations decls).slots.get? m.id = some slot) (inside : slot < table.length)
    (layout : env.layout = ofDeclarations decls) (run : Runs (tableTarget m args) env s target s') :
    ∃ code, s.Appends s' code ∧ ∀ i ∈ code, i.InBounds := by
  obtain ⟨_,body,slot',type,receiver,head,descriptor,entry,pointer,code,owner',object,placed,described,appends⟩ :=
    run.appends_tableTarget
  obtain rfl := mem_unique owner owner'
  rw [layout] at object placed described
  obtain rfl := ok.inj ((vtableSlot_eq noted).symm.trans placed)
  obtain ⟨name,elements,shape,size⟩ := descriptorType_eq found
  obtain rfl := ok.inj (shape.symm.trans described)
  have headed : ∃ name elements, body = .struct name elements ∧ 0 < elements.length := by
    unfold bodyType at object
    cases known : (ofDeclarations decls).bodies.get? id with
    | none => simp [known] at object
    | some entry =>
      obtain rfl : NativeType.struct entry.1 entry.2 = body := by simpa [known] using object
      exact ⟨_,_,rfl,(getElem?_eq_some_iff.mp (headed_ofDeclarations id entry.1 entry.2 known)).1⟩
  obtain ⟨_,_,rfl,positive⟩ := headed
  refine ⟨_,appends,?_⟩
  simp only [List.forall_mem_cons,Instr.InBounds,size]
  exact ⟨positive,trivial,by omega,trivial,trivial,List.forall_mem_nil _⟩

/-- In a table without cycles, where no method overrides one of its own class, a class refines the method table of its
    superclass: the table does not get shorter, and each entry stays or is a method of the class that overrides it. Every
    method of a class with a table of its own has a slot in that table, which no other method of the class has, and the
    slot is within the type descriptor, so that the code of a call addresses elements that exist. -/
theorem tables_refine (named : decls.Named) (acyclic : decls.Acyclic) (outside : decls.OverridesOutside) :
    (∀ id c superclass s, decls.classes.get? id = some c → c.superclass = some superclass →
      decls.classes.get? superclass = some s → ∃ table inherited, (ofDeclarations decls).vtables.get? id = some table ∧
        (ofDeclarations decls).vtables.get? superclass = some inherited ∧ inherited.length ≤ table.length ∧
        ∀ (i : Nat) x, inherited[i]? = some x →
          table[i]? = some x ∨ ∃ m, decls.Virtual id m ∧ m.overrides = some x ∧ table[i]? = some m.id) ∧
    ∀ id c, decls.classes.get? id = some c → c.kind ≠ .interface → ∃ table name elements,
      (ofDeclarations decls).vtables.get? id = some table ∧ (ofDeclarations decls).descriptorType id = .ok (.struct name elements) ∧
      (∀ m, decls.Virtual id m → ∃ slot, (ofDeclarations decls).vtableSlot m.id = .ok slot ∧ table[slot]? = some m.id ∧
        vtableBase + slot < elements.length) ∧ (∀ m m', decls.Virtual id m → decls.Virtual id m' → m ≠ m' →
        (ofDeclarations decls).vtableSlot m.id ≠ (ofDeclarations decls).vtableSlot m'.id) ∧
      ∀ m, decls.Virtual id m → ∀ env s args target s', env.layout = ofDeclarations decls →
        Runs (tableTarget m args) env s target s' → ∃ code, s.Appends s' code ∧ ∀ i ∈ code, i.InBounds := by
  refine ⟨fun id c superclass s => refines_superclass named acyclic outside,fun id c declared concrete => ?_⟩
  have found := (tablesSound_ofDeclarations named acyclic).table declared (has_ofDeclarations declared)
  obtain ⟨name,elements,described,size⟩ := descriptorType_eq found
  have placed : ∀ m, decls.Virtual id m → ∃ slot, (ofDeclarations decls).slots.get? m.id = some slot ∧
      (placeMethods (virtualMethods decls c id) ((ofDeclarations decls).inheritedTable c, (ofDeclarations decls).slots)).1[slot]? = some m.id := by
    intro m virtual
    obtain ⟨_,slot,found',noted,there⟩ := exists_slot named acyclic declared concrete virtual
      fun m' virtual' => outside id m' m virtual' virtual
    obtain rfl := Option.some.inj (found.symm.trans found')
    exact ⟨slot,noted,there⟩
  refine ⟨_,name,elements,found,described,?_,?_,?_⟩
  · intro m virtual
    obtain ⟨slot,noted,there⟩ := placed m virtual
    have bound := (List.getElem?_eq_some_iff.mp there).1
    exact ⟨slot,vtableSlot_eq noted,there,by omega⟩
  · intro m m' virtual virtual' different same
    obtain ⟨slot,noted,there⟩ := placed m virtual
    obtain ⟨slot',noted',there'⟩ := placed m' virtual'
    obtain rfl : slot = slot' := by simpa [vtableSlot_eq noted,vtableSlot_eq noted'] using same
    exact different (named.eq_of_id virtual.declared virtual'.declared (Option.some.inj (there.symm.trans there')))
  · intro m virtual env s args target s' layout run
    obtain ⟨slot,noted,there⟩ := placed m virtual
    exact tableTarget_inBounds found virtual.owner noted (List.getElem?_eq_some_iff.mp there).1 layout run

end Layout

theorem shapes_refine_tables : shapeDecls.Named ∧ shapeDecls.Acyclic ∧ shapeDecls.OverridesOutside ∧ ∃ table inherited slot,
    (Layout.ofDeclarations shapeDecls).vtables.get? ⟨2⟩ = some table ∧
      (Layout.ofDeclarations shapeDecls).vtables.get? ⟨1⟩ = some inherited ∧ inherited.length ≤ table.length ∧
      (Layout.ofDeclarations shapeDecls).vtableSlot ⟨14⟩ = .ok slot ∧ table[slot]? = some ⟨14⟩ := by
  have named : shapeDecls.Named := Declarations.named_ofLists _ _ _
  have outside : shapeDecls.OverridesOutside := by
    have apart : ∀ m ∈ shapeDecls.functions.values, ∀ o ∈ shapeDecls.functions.values, m.owner = o.owner → m.overrides ≠ some o.id := by
      decide
    exact fun cls m o virtual virtual' => apart m virtual.declared o virtual'.declared (virtual.owner.trans virtual'.owner.symm)
  obtain ⟨refines,own⟩ := Layout.tables_refine named acyclic_shapeDecls outside
  obtain ⟨table,inherited,found,found',longer,-⟩ := refines ⟨2⟩ _ ⟨1⟩ _ rfl rfl rfl
  obtain ⟨_,_,_,found'',-,slots,-⟩ := own ⟨2⟩ _ rfl (by decide)
  obtain rfl := Option.some.inj (found.symm.trans found'')
  obtain ⟨slot,noted,there,-⟩ := slots (openMethod 14 2 none) ⟨by decide,rfl,rfl,.inl rfl⟩
  exact ⟨named,acyclic_shapeDecls,outside,table,inherited,slot,found,found',longer,noted,there⟩

namespace Layout
variable {decls : Declarations} {l : Layout} {id top : ClassId} {c t : ClassDecl} {m o : FunctionDecl}

/-! ### Overriding across classes -/

def Lists (l : Layout) (id : ClassId) (x : FunctionId) : Prop := ∃ table, l.vtables.get? id = some table ∧ x ∈ table

theorem mem_inheritedTable {x : FunctionId} (extends' : c.superclass = some superclass) :
    x ∈ l.inheritedTable c ↔ l.Lists superclass x := by
  cases found : l.vtables.get? superclass <;> simp [inheritedTable,Lists,extends',found]

theorem mem_table_iff (named : decls.Named) (acyclic : decls.Acyclic) (declared : decls.classes.get? id = some c)
    (virtual : decls.Virtual top o) (different : id ≠ top) :
    (ofDeclarations decls).Lists id o.id ↔ o.id ∈ (ofDeclarations decls).inheritedTable c ∧
      ¬ (c.kind ≠ .interface ∧ ∃ m, decls.Virtual id m ∧ m.overrides = some o.id) := by
  have sound := tablesSound_ofDeclarations named acyclic
  have fresh := sound.fresh named acyclic declared
  have foreign : ∀ m ∈ virtualMethods decls c id, m.id ≠ o.id := fun m inside =>
    (mem_virtualMethods.mp inside).2.id_ne named virtual different
  simp only [Lists,sound.table declared (has_ofDeclarations declared),Option.some.injEq,exists_eq_left']
  constructor
  · intro listed
    have notOwn : ¬ ∃ m ∈ virtualMethods decls c id, m.id = o.id := by
      rintro ⟨m,inside,same⟩
      exact foreign m inside same
    refine ⟨(mem_placeMethods listed).resolve_right notOwn,?_⟩
    rintro ⟨concrete,m,method,overrides⟩
    exact notMem_placeMethods sound.standing_inherited fresh (mem_virtualMethods.mpr ⟨concrete,method⟩) overrides foreign listed
  · rintro ⟨inherited,untouched⟩
    obtain ⟨i,there⟩ := List.getElem?_of_mem inherited
    refine List.mem_of_getElem? (placeMethods_keeps there fun m inside overrides => untouched ?_)
    obtain ⟨concrete,method⟩ := mem_virtualMethods.mp inside
    exact ⟨concrete,m,method,overrides⟩

theorem length_le_of_extends {above : List FunctionId} (named : decls.Named) (acyclic : decls.Acyclic)
    (path : Relation.ReflTransGen decls.Extends id top) (found' : (ofDeclarations decls).vtables.get? top = some above) :
    ∃ table, (ofDeclarations decls).vtables.get? id = some table ∧ above.length ≤ table.length := by
  have sound := tablesSound_ofDeclarations named acyclic
  induction path using ReflTransGen.head_induction_on with
  | refl => exact ⟨above,found',Nat.le_refl _⟩
  | head step _ ih =>
    obtain ⟨c,declared,extends'⟩ := step
    obtain ⟨table,found,longer⟩ := ih
    refine ⟨_,sound.table declared (has_ofDeclarations declared),Nat.le_trans longer ?_⟩
    rw [inheritedTable_eq extends' found]
    exact length_le_placeMethods

end Layout

/-- A class above `id` and below `top` has a method in its table that overrides a given one. -/
def Declarations.OverriddenBetween (d : Declarations) (id top : ClassId) (x : FunctionId) : Prop :=
  ∃ middle c m, Relation.TransGen d.Extends id middle ∧ Relation.TransGen d.Extends middle top ∧
    d.classes.get? middle = some c ∧ c.kind ≠ .interface ∧ d.Virtual middle m ∧ m.overrides = some x

namespace Layout
variable {decls : Declarations} {l : Layout} {id top : ClassId} {c t : ClassDecl} {m o : FunctionDecl}

section
variable (named : decls.Named) (acyclic : decls.Acyclic) (declared : decls.classes.get? id = some c)
include named acyclic declared

theorem inherited_iff (above : Relation.TransGen decls.Extends id top) (virtual : decls.Virtual top o) : o.id ∈ (ofDeclarations decls).inheritedTable c ↔
      (ofDeclarations decls).Lists top o.id ∧ ¬ decls.OverriddenBetween id top o.id := by
  induction above using head_induction_on generalizing c with
  | @single sub step =>
    obtain ⟨c',declared',extends'⟩ := step
    obtain rfl := mem_unique declared declared'
    have between : ¬ decls.OverriddenBetween sub top o.id := by
      rintro ⟨middle,_,_,below,above,-⟩
      obtain ⟨next,⟨_,found,extends''⟩,rest⟩ := head'_iff.mp below
      obtain rfl := mem_unique declared found
      obtain rfl := mem_unique extends' extends''
      exact acyclic _ (.trans_right rest above)
    simp only [mem_inheritedTable extends',between,not_false_eq_true,and_true]
  | @head sub next step rest ih =>
    obtain ⟨c',declared',extends'⟩ := step
    obtain rfl := mem_unique declared declared'
    obtain ⟨_,⟨s,found,-⟩,-⟩ := head'_iff.mp rest
    have different : next ≠ top := by
      rintro rfl
      exact acyclic _ rest
    -- What stands between a class and the top is its superclass and what stands between that one and the top.
    have between : decls.OverriddenBetween sub top o.id ↔
        (s.kind ≠ .interface ∧ ∃ m, decls.Virtual next m ∧ m.overrides = some o.id) ∨ decls.OverriddenBetween next top o.id := by
      constructor
      · rintro ⟨middle,m,f,below,above,known,concrete,method,overrides⟩
        obtain ⟨_,⟨_,found',extends''⟩,further⟩ := head'_iff.mp below
        obtain rfl := mem_unique declared found'
        obtain rfl := mem_unique extends' extends''
        rcases reflTransGen_iff_eq_or_transGen.mp further with rfl | further
        · obtain rfl := mem_unique found known
          exact .inl ⟨concrete,f,method,overrides⟩
        · exact .inr ⟨middle,m,f,further,above,known,concrete,method,overrides⟩
      · rintro (⟨concrete,f,method,overrides⟩ | ⟨middle,m,f,below,rest⟩)
        · exact ⟨next,s,f,.single ⟨c,declared,extends'⟩,rest,found,concrete,method,overrides⟩
        · exact ⟨middle,m,f,.head ⟨c,declared,extends'⟩ below,rest⟩
    rw [mem_inheritedTable extends',mem_table_iff named acyclic found virtual different,ih found,between,not_or,and_assoc]
    exact and_congr_right fun _ => and_comm

variable (concrete : c.kind ≠ .interface) (virtual : decls.Virtual id m)
include concrete virtual

theorem slot_lt : ∃ slot table, (ofDeclarations decls).slots.get? m.id = some slot ∧ (ofDeclarations decls).vtables.get? id = some table ∧
      slot < table.length := by
  have sound := tablesSound_ofDeclarations named acyclic
  have has := has_ofDeclarations declared
  have inside : m ∈ virtualMethods decls c id := mem_virtualMethods.mpr ⟨concrete,virtual⟩
  obtain ⟨slot,noted,bound⟩ := placeMethods_slot_lt (nodup_virtualMethods named) inside
  exact ⟨slot,_,(sound.slots declared has inside).trans noted,sound.table declared has,bound⟩

/-- A method that overrides one which its class does not inherit gets a slot that no method of a superclass has. -/
theorem slot_ne_of_notMem (overrides : m.overrides = some o.id)
    (above : Relation.TransGen decls.Extends id top) (declared' : decls.classes.get? top = some t) (concrete' : t.kind ≠ .interface)
    (virtual' : decls.Virtual top o) (absent : o.id ∉ (ofDeclarations decls).inheritedTable c) :
    (ofDeclarations decls).slots.get? m.id ≠ (ofDeclarations decls).slots.get? o.id := by
  have sound := tablesSound_ofDeclarations named acyclic
  have inside : m ∈ virtualMethods decls c id := mem_virtualMethods.mpr ⟨concrete,virtual⟩
  have different : id ≠ top := by
    rintro rfl
    exact acyclic id above
  obtain ⟨i,noted,behind⟩ := placeMethods_appends (nodup_virtualMethods named) inside overrides absent
    fun m' inside' => (mem_virtualMethods.mp inside').2.id_ne named virtual' different
  obtain ⟨j,table,noted',found,bound⟩ := slot_lt named acyclic declared' concrete' virtual'
  obtain ⟨superclass,⟨_,known,extends'⟩,path⟩ := head'_iff.mp above
  obtain rfl := mem_unique declared known
  obtain ⟨inherited,found',longer⟩ := length_le_of_extends named acyclic path found
  rw [inheritedTable_eq extends' found'] at behind
  rw [sound.slots declared (has_ofDeclarations declared) inside,noted,noted']
  simp only [ne_eq,some.injEq]
  omega

/-- A method that alone overrides one which its class inherits takes its slot and stands in the table there. -/
theorem slot_eq_of_mem (overrides : m.overrides = some o.id)
    (inherited : o.id ∈ (ofDeclarations decls).inheritedTable c) (alone : ∀ m', decls.Virtual id m' → m'.overrides = some o.id → m' = m)
    (untouched : ∀ m' slot, decls.Virtual id m' → (ofDeclarations decls).slots.get? m.id = some slot →
      (ofDeclarations decls).slots.get? o.id = some slot → m'.overrides ≠ some m.id) :
    ∃ slot table, (ofDeclarations decls).slots.get? o.id = some slot ∧ (ofDeclarations decls).slots.get? m.id = some slot ∧
      (ofDeclarations decls).vtables.get? id = some table ∧ table[slot]? = some m.id := by
  have sound := tablesSound_ofDeclarations named acyclic
  have inside : m ∈ virtualMethods decls c id := mem_virtualMethods.mpr ⟨concrete,virtual⟩
  obtain ⟨slot,there⟩ := List.getElem?_of_mem inherited
  have noted := sound.standing_inherited slot o.id there
  have taken : (ofDeclarations decls).slots.get? m.id = some slot := by
    rw [sound.slots declared (has_ofDeclarations declared) inside]
    exact placeMethods_takes sound.standing_inherited (sound.fresh named acyclic declared) inside there overrides
      fun m' inside' => alone m' (mem_virtualMethods.mp inside').2
  obtain ⟨table,slot',found,taken',held⟩ := exists_slot named acyclic declared concrete virtual fun m' virtual' =>
    untouched m' slot virtual' taken noted
  obtain rfl := mem_unique taken taken'
  exact ⟨slot,table,noted,taken,found,held⟩

end

/-- A method that overrides one of a superclass shares its slot, and is in the table of its class there, exactly if the
    superclass lists that one and no class in between has a method that overrides it as well. Where no method of the
    superclass itself overrides it, the superclass lists it. -/
theorem override_shares_slot_iff (named : decls.Named) (acyclic : decls.Acyclic) (declared : decls.classes.get? id = some c)
    (concrete : c.kind ≠ .interface) (virtual : decls.Virtual id m) (overrides : m.overrides = some o.id)
    (above : Relation.TransGen decls.Extends id top) (declared' : decls.classes.get? top = some t) (concrete' : t.kind ≠ .interface)
    (virtual' : decls.Virtual top o)
    (alone : ∀ m' p owner, decls.Virtual id m' → m' ≠ m → m'.overrides = some p.id → Relation.ReflTransGen decls.Extends id owner →
      decls.Virtual owner p → (ofDeclarations decls).vtableSlot p.id ≠ (ofDeclarations decls).vtableSlot o.id) :
    ((∃ slot table, (ofDeclarations decls).vtableSlot o.id = .ok slot ∧ (ofDeclarations decls).vtableSlot m.id = .ok slot ∧
        (ofDeclarations decls).vtables.get? id = some table ∧ table[slot]? = some m.id) ↔
      (ofDeclarations decls).Lists top o.id ∧ ¬ decls.OverriddenBetween id top o.id) ∧
    ((∀ m', decls.Virtual top m' → m'.overrides ≠ some o.id) → (ofDeclarations decls).Lists top o.id) := by
  refine ⟨?_,fun untouched => ?_⟩
  · rw [← inherited_iff named acyclic declared above virtual']
    constructor
    · rintro ⟨slot,-,shared,own,-,-⟩
      by_contra absent
      exact slot_ne_of_notMem named acyclic declared concrete virtual overrides above declared' concrete' virtual' absent
        ((slots_of_vtableSlot own).trans (slots_of_vtableSlot shared).symm)
    · intro inherited
      have only : ∀ m', decls.Virtual id m' → m'.overrides = some o.id → m' = m := by
        intro m' method same
        by_contra other
        exact alone m' o top method other same above.to_reflTransGen virtual' rfl
      -- A method that overrides `m` overrides one with the slot of `o`; and `m` does not override itself.
      have untouched : ∀ m' slot, decls.Virtual id m' → (ofDeclarations decls).slots.get? m.id = some slot →
          (ofDeclarations decls).slots.get? o.id = some slot → m'.overrides ≠ some m.id := by
        intro m' slot method own shared same
        have other : m' ≠ m := by
          rintro rfl
          obtain rfl := named.eq_of_id virtual.declared virtual'.declared (Option.some.inj (same.symm.trans overrides))
          obtain rfl := Option.some.inj (virtual.owner.symm.trans virtual'.owner)
          exact acyclic id above
        exact alone m' m id method other same .refl virtual ((vtableSlot_eq own).trans (vtableSlot_eq shared).symm)
      obtain ⟨slot,table,shared,own,found,there⟩ :=
        slot_eq_of_mem named acyclic declared concrete virtual overrides inherited only untouched
      exact ⟨slot,table,vtableSlot_eq shared,vtableSlot_eq own,found,there⟩
  · obtain ⟨table,slot,found,-,there⟩ := exists_slot named acyclic declared' concrete' virtual' untouched
    exact ⟨table,found,List.mem_of_getElem? there⟩

end Layout

theorem shapes_share_slot : shapeDecls.Named ∧ shapeDecls.Acyclic ∧ Relation.TransGen shapeDecls.Extends ⟨2⟩ ⟨0⟩ ∧ ∃ slot table,
    (Layout.ofDeclarations shapeDecls).vtableSlot ⟨11⟩ = .ok slot ∧ (Layout.ofDeclarations shapeDecls).vtableSlot ⟨13⟩ = .ok slot ∧
      (Layout.ofDeclarations shapeDecls).vtables.get? ⟨2⟩ = some table ∧ table[slot]? = some ⟨13⟩ := by
  have named : shapeDecls.Named := Declarations.named_ofLists _ _ _
  have above : Relation.TransGen shapeDecls.Extends ⟨2⟩ ⟨0⟩ := .tail (.single ⟨_,rfl,rfl⟩) ⟨_,rfl,rfl⟩
  have virtual : shapeDecls.Virtual ⟨2⟩ (openMethod 13 2 (some ⟨11⟩)) := ⟨by decide,rfl,rfl,.inl rfl⟩
  have virtual' : shapeDecls.Virtual ⟨0⟩ (openMethod 11 0 none) := ⟨by decide,rfl,rfl,.inl rfl⟩
  have others : ∀ m ∈ shapeDecls.functions.values, m.overrides = some ⟨11⟩ → m = openMethod 13 2 (some ⟨11⟩) := by decide
  have second : ∀ m ∈ shapeDecls.functions.values, m.owner = some ⟨2⟩ → m ≠ openMethod 13 2 (some ⟨11⟩) → m.overrides = none := by
    decide
  obtain ⟨shares,lists⟩ := Layout.override_shares_slot_iff named acyclic_shapeDecls rfl (by decide) virtual rfl above rfl (by decide) virtual'
    fun m p owner method other overrides _ _ => by simp [second m method.declared method.owner other] at overrides
  refine ⟨named,acyclic_shapeDecls,above,shares.mpr ⟨lists fun m method overrides => ?_,?_⟩⟩
  · obtain rfl := others m method.declared overrides
    exact absurd method.owner (by decide)
  · rintro ⟨middle,c,m,below,-,-,-,method,overrides⟩
    obtain rfl := others m method.declared overrides
    obtain rfl := Option.some.inj (virtual.owner.symm.trans method.owner)
    exact acyclic_shapeDecls _ below

/-- A hierarchy of three classes whose last one overrides a method of the first that the second overrides too. -/
def skippingDecls : Declarations := .ofLists
  [⟨⟨0⟩,"Shape",.cls,none,[],false⟩,⟨⟨1⟩,"Disc",.cls,some ⟨0⟩,[],false⟩,⟨⟨2⟩,"Circle",.cls,some ⟨1⟩,[],false⟩]
  [openMethod 10 0 none,openMethod 11 1 (some ⟨10⟩),openMethod 12 2 (some ⟨10⟩)] []

/-- The method gets a slot of its own, and the table keeps the method of the second class at the slot of the first. -/
theorem skipping_override_misses_slot : skippingDecls.Named ∧ skippingDecls.Acyclic ∧
    skippingDecls.Virtual ⟨2⟩ (openMethod 12 2 (some ⟨10⟩)) ∧ skippingDecls.Virtual ⟨0⟩ (openMethod 10 0 none) ∧
    Relation.TransGen skippingDecls.Extends ⟨2⟩ ⟨0⟩ ∧ (∀ m, skippingDecls.Virtual ⟨2⟩ m → m = openMethod 12 2 (some ⟨10⟩)) ∧
    (Layout.ofDeclarations skippingDecls).vtableSlot ⟨10⟩ = .ok 0 ∧ (Layout.ofDeclarations skippingDecls).vtableSlot ⟨12⟩ = .ok 1 ∧
    (Layout.ofDeclarations skippingDecls).vtables.get? ⟨2⟩ = some [⟨11⟩,⟨12⟩] := by
  have last : ∀ m ∈ skippingDecls.functions.values, m.owner = some ⟨2⟩ → m = openMethod 12 2 (some ⟨10⟩) := by decide
  exact ⟨Declarations.named_ofLists _ _ _,.of_rank ClassId.index (by decide),⟨by decide,rfl,rfl,.inl rfl⟩,
    ⟨by decide,rfl,rfl,.inl rfl⟩,.tail (.single ⟨_,rfl,rfl⟩) ⟨_,rfl,rfl⟩,fun m method => last m method.declared method.owner,
    rfl,rfl,rfl⟩

end BlockLowering
