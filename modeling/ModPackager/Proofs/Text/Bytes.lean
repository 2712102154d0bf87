import Mathlib.Data.List.Lex
import Mathlib.Tactic.SplitIfs

/-!
# The bytes of texts

A text comes before another one just in the way its bytes do (`bytes_lt`). A character is written in one to four bytes,
each of which holds a part of its code, the first one also how many there are. So of two characters in order, the bytes
are in order already where they first differ (`partsBelow_units`), whatever is written behind them.
-/

namespace ModPackager.Text

/-! ### Numbers as bytes -/

/-- The first numbers in which two lists differ stand in order. -/
def PartsBelow : List Nat → List Nat → Prop
  | a :: as, b :: bs => a < b ∨ a = b ∧ PartsBelow as bs
  | _, _ => False

/-- Numbers in order stay so as bytes, whatever follows. -/
theorem PartsBelow.ofNat_lt {as bs : List Nat} (h : PartsBelow as bs) (has : ∀ a ∈ as, a < 256)
    (hbs : ∀ b ∈ bs, b < 256) (x y : List UInt8) : as.map UInt8.ofNat ++ x < bs.map UInt8.ofNat ++ y := by
  induction as generalizing bs with
  | nil => exact h.elim
  | cons a as ih =>
      cases bs with
      | nil => exact h.elim
      | cons b bs =>
          rw [List.forall_mem_cons] at has hbs
          rw [List.map_cons, List.map_cons, List.cons_append, List.cons_append, List.cons_lt_cons_iff,
            UInt8.lt_iff_toNat_lt, ← UInt8.toNat_inj, UInt8.toNat_ofNat', UInt8.toNat_ofNat', Nat.mod_eq_of_lt has.1,
            Nat.mod_eq_of_lt hbs.1]
          exact h.imp_right fun ⟨heq, hrest⟩ => ⟨heq, ih hrest has.2 hbs.2⟩

/-! ### Characters -/

/-- The numbers that the code of a character is written with. -/
def units (code : Nat) : List Nat :=
  if code ≤ 127 then [code]
  else if code ≤ 2047 then [code / 64 % 32 + 192, code % 64 + 128]
  else if code ≤ 65535 then [code / 4096 % 16 + 224, code / 64 % 64 + 128, code % 64 + 128]
  else [code / 262144 % 8 + 240, code / 4096 % 64 + 128, code / 64 % 64 + 128, code % 64 + 128]

theorem utf8EncodeChar_eq (c : Char) : String.utf8EncodeChar c = (units c.toNat).map UInt8.ofNat := by
  unfold String.utf8EncodeChar units
  simp only [Char.toNat]
  split_ifs <;> rfl

theorem units_lt (code : Nat) : ∀ unit ∈ units code, unit < 256 := by
  unfold units
  split_ifs <;> simp only [List.mem_cons, List.not_mem_nil, or_false, forall_eq_or_imp, forall_eq] <;> omega

theorem partsBelow_units {a b : Nat} (h : a < b) (hb : b < 0x110000) : PartsBelow (units a) (units b) := by
  have hparts : ∀ code : Nat, code / 4096 = code / 64 / 64 ∧ code / 262144 = code / 64 / 64 / 64 := fun code => by
    simp [Nat.div_div_eq_div_mul]
  unfold units
  split_ifs <;> simp only [PartsBelow, hparts] <;> omega

/-! ### Texts -/

/-- The bytes of a text. -/
def bytes (text : String) : List UInt8 := text.toUTF8.data.toList

theorem bytes_eq (text : String) : bytes text = text.toList.flatMap String.utf8EncodeChar := by
  obtain ⟨chars, rfl⟩ : ∃ chars, text = String.ofList chars := ⟨text.toList, String.ofList_toList.symm⟩
  rw [bytes, String.toUTF8, String.toByteArray_ofList, String.toList_ofList, List.utf8Encode, List.toList_data_toByteArray]

/-- Characters in order stay so as bytes, whatever follows. -/
theorem utf8EncodeChar_lt {c d : Char} (h : c < d) (x y : List UInt8) :
    String.utf8EncodeChar c ++ x < String.utf8EncodeChar d ++ y := by
  have hd : d.toNat < 0x110000 := d.valid.elim (fun h => by simp only [Char.toNat]; omega) fun h => h.2
  rw [utf8EncodeChar_eq, utf8EncodeChar_eq]
  exact (partsBelow_units h hd).ofNat_lt (units_lt _) (units_lt _) x y

theorem flatMap_utf8EncodeChar_lt {as bs : List Char} (h : as < bs) :
    as.flatMap String.utf8EncodeChar < bs.flatMap String.utf8EncodeChar := by
  induction as generalizing bs with
  | nil =>
      obtain ⟨d, bs, rfl⟩ : ∃ d rest, bs = d :: rest := List.exists_cons_of_ne_nil fun hnil => by simp [hnil] at h
      obtain ⟨first, rest, hbytes⟩ := List.exists_cons_of_ne_nil (String.utf8EncodeChar_ne_nil (c := d))
      rw [List.flatMap_nil, List.flatMap_cons, hbytes]
      exact List.nil_lt_cons _ _
  | cons c as ih =>
      cases bs with
      | nil => simp at h
      | cons d bs =>
          rw [List.flatMap_cons, List.flatMap_cons]
          rcases List.cons_lt_cons_iff.1 h with hlt | ⟨rfl, hrest⟩
          · exact utf8EncodeChar_lt hlt _ _
          · exact List.append_left_lt (ih hrest)

/-- Texts in order are in the order of their bytes. -/
theorem bytes_lt {a b : String} (h : a < b) : bytes a < bytes b := by
  rw [bytes_eq, bytes_eq]
  exact flatMap_utf8EncodeChar_lt (String.lt_iff.1 h)

end ModPackager.Text
