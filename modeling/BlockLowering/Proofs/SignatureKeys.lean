import BlockLowering.Pass.Call
/-!
Signature keys. A key is a flat text, but it can be read back: the texts of types consist of letters, digits and a question mark,
so the last opening parenthesis of a key ends the name, whatever the name is, and the commas behind it separate the types.
-/
namespace BlockLowering
open List Nat
variable {c : Char} {types : List Ty}

/-- The characters that texts of types consist of. -/
def Ty.Spells (c : Char) : Prop := c.isAlphanum = true ∨ c = '?'

instance (c : Char) : Decidable (Ty.Spells c) := inferInstanceAs (Decidable (_ ∨ _))

namespace Ty

/-- The types that have a name of their own. -/
def named : List Ty :=
  [.unit,.nothing false,.nothing true,.any false,.any true] ++ Primitive.all.map .primitive

theorem mem_named_or_reference (t : Ty) : t ∈ named ∨ ∃ cls nullable, t = .reference cls nullable := by
  cases t with
  | unit => exact .inl (by decide)
  | nothing nullable => cases nullable <;> exact .inl (by decide)
  | primitive kind => cases kind <;> exact .inl (by decide)
  | any nullable => cases nullable <;> exact .inl (by decide)
  | reference cls nullable => exact .inr ⟨cls,nullable,rfl⟩

theorem toList_text_reference (cls : ClassId) (nullable : Bool) : (reference cls nullable).text.toList =
    "class".toList ++ (toDigits 10 cls.index ++ if nullable then ['?'] else []) := by
  cases nullable <;> simp [text,baseName,isNullable,toString]

theorem spells_text {t : Ty} (inside : c ∈ t.text.toList) : Spells c := by
  rcases t.mem_named_or_reference with own | ⟨cls,nullable,rfl⟩
  · have all : ∀ t ∈ named, t.text.toList.all (fun c => decide (Spells c)) = true := by decide
    exact of_decide_eq_true (all_eq_true.mp (all t own) c inside)
  · rw [toList_text_reference,mem_append,mem_append] at inside
    rcases inside with word | digit | mark
    · have all : "class".toList.all Char.isAlphanum = true := by decide
      exact .inl (all_eq_true.mp all c word)
    · exact .inl (by simp [Char.isAlphanum,isDigit_of_mem_toDigits (by decide) (by decide) digit])
    · cases nullable <;> simp at mark
      exact .inr mark

theorem text_ne_nil (t : Ty) : t.text.toList ≠ [] := by
  rcases t.mem_named_or_reference with own | ⟨cls,nullable,rfl⟩
  · have all : ∀ t ∈ named, t.text.toList ≠ [] := by decide
    exact all t own
  · simp [toList_text_reference]

theorem text_injective : Function.Injective text := by
  intro t t' same
  have lists : t.text.toList = t'.text.toList := congrArg String.toList same
  have distinct : ∀ t ∈ named, ∀ t' ∈ named, t.text.toList = t'.text.toList → t = t' := by decide
  have apart : ∀ t ∈ named, t.text.toList.head? ≠ some 'c' := by decide
  rcases t.mem_named_or_reference with own | ⟨cls,nullable,rfl⟩ <;> rcases t'.mem_named_or_reference with own' | ⟨cls',nullable',rfl⟩
  · exact distinct t own t' own' lists
  · exact absurd (by rw [lists,toList_text_reference]; rfl) (apart t own)
  · exact absurd (by rw [← lists,toList_text_reference]; rfl) (apart t' own')
  · rw [toList_text_reference,toList_text_reference] at lists
    have numbers := append_cancel_left lists
    -- No digit is a question mark, so the mark ends the number.
    have mark : ∀ n, '?' ∉ toDigits 10 n := fun n inside => by
      simpa using isDigit_of_mem_toDigits (by decide) (by decide) inside
    have read : ∀ n (b : Bool), (toDigits 10 n ++ if b then ['?'] else []).takeWhile (· ≠ '?') = toDigits 10 n := by
      intro n b
      rw [takeWhile_append_of_pos fun c inside => by simpa using fun same : c = '?' => mark n (same ▸ inside)]
      cases b <;> simp
    have digits : toDigits 10 cls.index = toDigits 10 cls'.index := by
      rw [← read cls.index nullable,numbers,read]
    have index : cls.index = cls'.index := by
      rw [← ofDigitChars_ten_toDigits (n := cls.index),digits,ofDigitChars_ten_toDigits]
    rw [digits] at numbers
    have marks := append_cancel_left numbers
    obtain rfl : cls = cls' := congrArg ClassId.mk index
    cases nullable <;> cases nullable' <;> simp at marks ⊢

end Ty

theorem append_cons_inj_of_not_mem {before before' after after' : List Char} (last : c ∉ after) (last' : c ∉ after')
    (same : before ++ c :: after = before' ++ c :: after') : before = before' ∧ after = after' := by
  rcases append_eq_append_iff.mp same with ⟨more,rfl,rest⟩ | ⟨more,rfl,rest⟩
  · cases more with
    | nil => exact ⟨by simp,by simpa using rest⟩
    | cons first more =>
      obtain ⟨-,rfl⟩ := cons.inj rest
      simp at last
  · cases more with
    | nil => exact ⟨by simp,by simpa using rest.symm⟩
    | cons first more =>
      obtain ⟨-,rfl⟩ := cons.inj rest
      simp at last'

def Ty.texts (types : List Ty) : List Char := [','].intercalate (types.map fun t => t.text.toList)

namespace Ty

theorem texts_cons_cons (t t' : Ty) (types : List Ty) : texts (t :: t' :: types) = t.text.toList ++ ',' :: texts (t' :: types) := by
  simp [texts]

theorem mem_texts (inside : c ∈ texts types) : Spells c ∨ c = ',' := by
  induction types with
  | nil => simp [texts] at inside
  | cons t rest ih =>
    cases rest with
    | nil => exact .inl (spells_text (by simpa [texts] using inside))
    | cons t' rest =>
      rw [texts_cons_cons,mem_append,mem_cons] at inside
      rcases inside with own | rfl | later
      · exact .inl (spells_text own)
      · exact .inr rfl
      · exact ih later

theorem texts_eq_nil (empty : texts types = []) : types = [] := by
  cases types with
  | nil => rfl
  | cons t rest =>
    cases rest with
    | nil => exact absurd (by simpa [texts] using empty) t.text_ne_nil
    | cons t' rest => simp [texts_cons_cons] at empty

theorem texts_injective : Function.Injective texts := by
  intro types types' same
  by_cases none : types = []
  · subst none
    exact (texts_eq_nil same.symm).symm
  · have some' : types' ≠ [] := fun none' => none (texts_eq_nil (by rw [same,none']; rfl))
    have split : ∀ {types : List Ty}, types ≠ [] → (texts types).splitOn ',' = types.map fun t => t.text.toList := fun {types} some =>
      splitOn_intercalate ',' (by
        intro piece inside comma
        obtain ⟨t,-,rfl⟩ := mem_map.mp inside
        exact absurd (spells_text comma) (by decide)) (by simpa using some)
    have pieces := (split none).symm.trans ((congrArg (splitOn ',') same).trans (split some'))
    exact (map_inj_right fun t t' texts => text_injective (String.toList_injective texts)).mp pieces

end Ty

/-- The types that a method is looked up with. -/
def FunctionDecl.keyTypes (f : FunctionDecl) : List Ty := (f.extensionReceiver.toList ++ f.parameters).map fun p => p.ty

theorem FunctionDecl.toList_signatureKey (f : FunctionDecl) : f.signatureKey.toList =
    f.name.toList ++ '(' :: (Ty.texts f.keyTypes ++ ')' :: ':' :: f.returnType.text.toList) := by
  simp [signatureKey,Ty.texts,keyTypes,toString,Function.comp_def]

/-- Methods have the same key exactly if they have the same name, are looked up with the same types and return the same. -/
theorem FunctionDecl.signatureKey_eq_iff (f g : FunctionDecl) : f.signatureKey = g.signatureKey ↔
    f.name = g.name ∧ (f.extensionReceiver.toList ++ f.parameters).map (fun p => p.ty) =
      (g.extensionReceiver.toList ++ g.parameters).map (fun p => p.ty) ∧ f.returnType = g.returnType := by
  constructor
  · intro same
    have lists := congrArg String.toList same
    rw [toList_signatureKey,toList_signatureKey] at lists
    have opening : ∀ f : FunctionDecl, '(' ∉ Ty.texts f.keyTypes ++ ')' :: ':' :: f.returnType.text.toList := by
      intro f inside
      simp only [mem_append,mem_cons] at inside
      rcases inside with types | other | other | result
      · exact absurd (Ty.mem_texts types) (by decide)
      · cases other
      · cases other
      · exact absurd (Ty.spells_text result) (by decide)
    have closing : ∀ f : FunctionDecl, ')' ∉ ':' :: f.returnType.text.toList := by
      intro f inside
      rcases mem_cons.mp inside with other | result
      · cases other
      · exact absurd (Ty.spells_text result) (by decide)
    obtain ⟨name,rest⟩ := append_cons_inj_of_not_mem (opening f) (opening g) lists
    obtain ⟨types,result⟩ := append_cons_inj_of_not_mem (closing f) (closing g) rest
    exact ⟨String.toList_injective name,Ty.texts_injective types,Ty.text_injective (String.toList_injective (cons.inj result).2)⟩
  · rintro ⟨name,types,result⟩
    refine String.toList_injective ?_
    rw [toList_signatureKey,toList_signatureKey,name,result,keyTypes,keyTypes,types]

end BlockLowering
