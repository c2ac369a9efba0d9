import Mathlib.Data.List.Lex
import Mathlib.Data.String.Basic
import Mathlib.Order.Lattice

/-!
# Lib.Utf8 — strings compare as their UTF-8 bytes

A longer encoding begins with a greater byte, and encodings of one length compare as the code points,
so that a bytewise comparison sorts texts by their code points (`bytes_lt_bytes`).  A text has at
least as many bytes as characters (`length_le_size`).
-/

namespace Utf8

/-- The UTF-8 bytes of a text. -/
def encode (l : List Char) : List UInt8 := l.flatMap String.utf8EncodeChar

def bytes (s : String) : List UInt8 := encode s.toList

/-- The encoding of a lesser character is less, whatever follows. -/
theorem encodeChar_lt {c d : Char} (h : c < d) (x y : List UInt8) :
    String.utf8EncodeChar c ++ x < String.utf8EncodeChar d ++ y := by
  have hlt : c.val.toNat < d.val.toNat := h
  have hd : d.val.toNat < 0x110000 := by
    have := d.valid
    unfold UInt32.isValidChar Nat.isValidChar at this
    omega
  -- the bytes as they are, and the digits to the base 64 one after the other
  have h2 : ∀ a, (a % 32 + 192) % 2 ^ 8 = a % 32 + 192 := by omega
  have h3 : ∀ a, (a % 16 + 224) % 2 ^ 8 = a % 16 + 224 := by omega
  have h4 : ∀ a, (a % 8 + 240) % 2 ^ 8 = a % 8 + 240 := by omega
  have hnext : ∀ a, (a % 64 + 128) % 2 ^ 8 = a % 64 + 128 := by omega
  have hdiv : ∀ a, a / 4096 = a / 64 / 64 ∧ a / 262144 = a / 64 / 64 / 64 := by omega
  unfold String.utf8EncodeChar
  dsimp only
  generalize c.val.toNat = n at hlt ⊢
  generalize d.val.toNat = m at hlt hd ⊢
  split_ifs
  all_goals
    simp only [List.cons_append, List.nil_append, List.cons_lt_cons_iff, UInt8.lt_iff_toNat_lt,
      ← UInt8.toNat_inj, UInt8.toNat_ofNat', h2, h3, h4, hnext, hdiv]
    omega

theorem encode_lt : ∀ {l l' : List Char}, l < l' → encode l < encode l'
  | [], [], h => absurd h (lt_irrefl _)
  | [], d :: l', _ => by
    have hne : String.utf8EncodeChar d ≠ [] := by
      rw [← List.length_pos_iff, String.length_utf8EncodeChar]
      exact Char.utf8Size_pos d
    obtain ⟨b, s, hb⟩ := List.exists_cons_of_ne_nil hne
    show [] < String.utf8EncodeChar d ++ encode l'
    rw [hb]
    exact List.nil_lt_cons _ _
  | _ :: _, [], h => absurd h (List.not_lt_nil _)
  | c :: l, d :: l', h => by
    show String.utf8EncodeChar c ++ encode l < String.utf8EncodeChar d ++ encode l'
    rcases List.cons_lt_cons_iff.mp h with hcd | ⟨rfl, hll⟩
    · exact encodeChar_lt hcd _ _
    · exact List.append_left_lt (encode_lt hll)

/-- **Bytewise order is the order of the strings.** -/
theorem bytes_lt_bytes {s t : String} : bytes s < bytes t ↔ s < t := by
  have hmono : ∀ {s t : String}, s < t → bytes s < bytes t :=
    fun h => encode_lt (String.lt_iff_toList_lt.mp h)
  refine ⟨fun h => ?_, hmono⟩
  rcases lt_trichotomy s t with hlt | rfl | hgt
  · exact hlt
  · exact absurd h (List.lt_irrefl _)
  · exact absurd h (List.lt_asymm (hmono hgt))

/-! ### Sizes -/

theorem size_cons (c : Char) (l : List Char) :
    (String.ofList (c :: l)).utf8ByteSize = c.utf8Size + (String.ofList l).utf8ByteSize := by
  rw [String.ofList_cons, String.utf8ByteSize_append, String.utf8ByteSize_singleton]

theorem size_replicate (n : ℕ) (c : Char) :
    (String.ofList (List.replicate n c)).utf8ByteSize = n * c.utf8Size := by
  induction n with
  | zero => rw [Nat.zero_mul]; rfl
  | succ n ih => rw [List.replicate_succ, size_cons, ih, Nat.succ_mul, Nat.add_comm]

/-- Every character takes a byte or more. -/
theorem length_le_size_ofList : ∀ l : List Char, l.length ≤ (String.ofList l).utf8ByteSize
  | [] => Nat.zero_le _
  | c :: l => by
    have hpos := Char.utf8Size_pos c
    have ih := length_le_size_ofList l
    rw [size_cons, List.length_cons]
    omega

theorem length_le_size (s : String) : s.length ≤ s.utf8ByteSize := by
  rw [← String.length_toList, ← String.ofList_toList (s := s), String.toList_ofList]
  exact length_le_size_ofList _

theorem size_pos_iff (s : String) : 0 < s.utf8ByteSize ↔ 0 < s.length := by
  rw [Nat.pos_iff_ne_zero, Nat.pos_iff_ne_zero, Ne, Ne, String.utf8ByteSize_eq_zero_iff,
    ← String.length_toList, List.length_eq_zero_iff, String.toList_eq_nil_iff]

end Utf8
