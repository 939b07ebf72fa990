import Mathlib.Algebra.Ring.Nat
import Mathlib.Data.List.Basic
import Mathlib.Tactic.SplitIfs

namespace Reckon

def bytes (text : String) : List UInt8 := text.toUTF8.data.toList

theorem bytes_eq (text : String) : bytes text = text.toList.flatMap String.utf8EncodeChar := by
  rw [bytes, String.toUTF8_eq_toByteArray, ← String.utf8Encode_toList, List.utf8Encode,
    List.toList_data_toByteArray]

namespace Utf8

def followers (n : Nat) : Nat :=
  if n ≤ 0x7f then 0 else if n ≤ 0x7ff then 1 else if n ≤ 0xffff then 2 else 3

def leader (n : Nat) : Nat :=
  if n ≤ 0x7f then n else if n ≤ 0x7ff then 192 + n / 64
  else if n ≤ 0xffff then 224 + n / 4096 else 240 + n / 262144

def digits64 : Nat → Nat → List UInt8
  | 0, _ => []
  | k + 1, n => digits64 k (n / 64) ++ [.ofNat (n % 64 + 128)]

section Digits

variable {m n : Nat}

theorem ofNat_lt (h : m < n) (hn : n < 256) : UInt8.ofNat m < .ofNat n := by
  rw [UInt8.lt_iff_toNat_lt, UInt8.toNat_ofNat', UInt8.toNat_ofNat']
  omega

theorem digits64_append_lt {k : Nat} (h : m < n) (hk : m / 64 ^ k = n / 64 ^ k)
    (s t : List UInt8) : digits64 k m ++ s < digits64 k n ++ t := by
  induction k generalizing m n s t with
  | zero =>
      rw [Nat.pow_zero, Nat.div_one, Nat.div_one] at hk
      exact absurd hk (Nat.ne_of_lt h)
  | succ k ih =>
      rw [digits64, digits64, List.append_assoc, List.append_assoc]
      rcases Nat.lt_or_eq_of_le (Nat.div_le_div_right (Nat.le_of_lt h)) with hd | hd
      · refine ih hd ?_ _ _
        rwa [Nat.div_div_eq_div_mul, Nat.div_div_eq_div_mul, ← Nat.pow_succ']
      · rw [hd]
        exact List.append_left_lt (.rel (ofNat_lt (by omega) (by omega)))

theorem leader_le (h : m < n) (hn : n < 0x110000) : leader n < 256 ∧
    (leader m < leader n ∨ leader m = leader n ∧ followers m = followers n ∧
      m / 64 ^ followers n = n / 64 ^ followers n) := by
  unfold leader followers
  split_ifs <;> omega

end Digits

theorem toNat_lt (c : Char) : c.val.toNat < 0x110000 := by
  have hv := c.valid
  simp only [UInt32.isValidChar, Nat.isValidChar] at hv
  omega

theorem utf8EncodeChar_eq (c : Char) : String.utf8EncodeChar c =
    .ofNat (leader c.val.toNat) :: digits64 (followers c.val.toNat) c.val.toNat := by
  have hc := toNat_lt c
  simp only [String.utf8EncodeChar, leader, followers]
  generalize c.val.toNat = n at hc
  split_ifs
  · rfl
  · have hl : n / 64 % 32 + 192 = 192 + n / 64 := by omega
    rw [hl]
    rfl
  · have hl : n / 4096 % 16 + 224 = 224 + n / 4096 := by omega
    rw [hl]
    rfl
  · have hl : n / 262144 % 8 + 240 = 240 + n / 262144 := by omega
    have h4096 : n / 4096 = n / 64 / 64 := by omega
    rw [hl, h4096]
    rfl

theorem utf8EncodeChar_append_lt {c d : Char} (h : c < d) (s t : List UInt8) :
    String.utf8EncodeChar c ++ s < String.utf8EncodeChar d ++ t := by
  have h : c.val.toNat < d.val.toNat := h
  obtain ⟨hl, hlt | ⟨he, hf, hq⟩⟩ := leader_le h (toNat_lt d)
  · rw [utf8EncodeChar_eq, utf8EncodeChar_eq]
    exact .rel (ofNat_lt hlt hl)
  · rw [utf8EncodeChar_eq, utf8EncodeChar_eq, he, hf]
    exact .cons (digits64_append_lt h hq s t)

end Utf8

open Utf8 in
/-- The leading byte of a character tells how many follow, more of them for larger characters, and
those that follow are digits, the highest first. -/
theorem bytes_lt {a b : String} (h : a < b) : bytes a < bytes b := by
  have h : a.toList < b.toList := h
  rw [bytes_eq, bytes_eq]
  generalize a.toList = cs at h
  generalize b.toList = ds at h
  induction h with
  | @nil d ds =>
      rw [List.flatMap_cons, utf8EncodeChar_eq]
      exact .nil
  | cons _ ih =>
      rw [List.flatMap_cons, List.flatMap_cons]
      exact List.append_left_lt ih
  | rel h =>
      rw [List.flatMap_cons, List.flatMap_cons]
      exact utf8EncodeChar_append_lt h _ _

end Reckon
