import Mathlib.Data.String.Basic
import Mathlib.Order.Fin.Basic

/-!
# Hashes as JavaScript strings

A `Hash` (`types.ts`, not under `src/`) is a JavaScript string, and
`HashSet.toSortedArray` sorts hashes with the default comparison of
`Array.prototype.sort`, which compares strings by their UTF-16 code units.
`Hash` is a string as that comparison sees it: its code units, ordered
lexicographically. The laws of `Isl.Dag.SetLaws` hold over every linear
order, this one among them.

Mathlib orders `String` by code points instead. The two orders agree on
strings of characters below `U+10000`, every hexadecimal commit hash among
them, and differ above, where a character takes a surrogate pair
(`ofString_supplementary_lt`).
-/

namespace Isl.Dag

/-- A string as its UTF-16 code units. -/
structure Hash where
  /-- The code units. -/
  codeUnits : List (Fin 65536)
  deriving DecidableEq

namespace Hash

/-- The code unit `n` modulo `2^16`. -/
def codeUnit (n : ℕ) : Fin 65536 := ⟨n % 65536, Nat.mod_lt _ (by decide)⟩

/-- The UTF-16 encoding of a character: itself below `U+10000`, else its
    surrogate pair. -/
def charCodeUnits (c : Char) : List (Fin 65536) :=
  if c.toNat < 0x10000 then [codeUnit c.toNat]
  else [codeUnit (0xD800 + (c.toNat - 0x10000) / 0x400),
    codeUnit (0xDC00 + (c.toNat - 0x10000) % 0x400)]

/-- The JavaScript string of a Lean string. -/
def ofString (s : String) : Hash := ⟨s.toList.flatMap charCodeUnits⟩

/-- The default comparison of `Array.prototype.sort`: code unit by code unit,
    a proper prefix first. -/
instance : LinearOrder Hash :=
  LinearOrder.lift' codeUnits fun ⟨_⟩ ⟨_⟩ h => congrArg mk h

theorem lt_iff_codeUnits_lt {a b : Hash} : a < b ↔ a.codeUnits < b.codeUnits := Iff.rfl

end Hash

section Lex

variable {β γ : Type} [LinearOrder β] [LinearOrder γ]

omit [LinearOrder β] in
theorem lex_cons_cons_iff {r : β → β → Prop} {a b : β} {l l' : List β} :
    List.Lex r (a :: l) (b :: l') ↔ r a b ∨ a = b ∧ List.Lex r l l' := by
  constructor
  · intro h
    cases h with
    | cons h => exact .inr ⟨rfl, h⟩
    | rel h => exact .inl h
  · rintro (h | ⟨rfl, h⟩)
    exacts [.rel h, .cons h]

/-- A strictly monotone map keeps the lexicographic order of lists. -/
theorem lex_map_iff {f : β → γ} (hf : StrictMono f) :
    ∀ {l l' : List β}, List.Lex (· < ·) (l.map f) (l'.map f) ↔ List.Lex (· < ·) l l'
  | [], [] => by simp
  | [], _ :: _ => iff_of_true .nil .nil
  | _ :: _, [] => by simp
  | a :: l, b :: l' => by
    simp only [List.map_cons, lex_cons_cons_iff, hf.lt_iff_lt, hf.injective.eq_iff, lex_map_iff hf]

end Lex

namespace Hash

theorem char_toNat_strictMono : StrictMono Char.toNat := fun _ _ h => h

/-- Below `U+10000` a character is one code unit, its code point. -/
theorem map_val_flatMap_charCodeUnits {l : List Char} (hl : ∀ c ∈ l, c.toNat < 0x10000) :
    (l.flatMap charCodeUnits).map Fin.val = l.map Char.toNat := by
  induction l with
  | nil => rfl
  | cons c l ih =>
    have hc := hl c (List.mem_cons_self c l)
    simp only [List.flatMap_cons, charCodeUnits, if_pos hc, List.singleton_append,
      List.map_cons, codeUnit, Nat.mod_eq_of_lt (by omega : c.toNat < 65536),
      ih fun d hd => hl d (List.mem_cons_of_mem c hd)]

theorem map_val_codeUnits_ofString {s : String} (hs : ∀ c ∈ s.toList, c.toNat < 0x10000) :
    (ofString s).codeUnits.map Fin.val = s.toList.map Char.toNat :=
  map_val_flatMap_charCodeUnits hs

/-- On strings of characters below `U+10000`, the order of
    `Array.prototype.sort` is Mathlib's order of `String`. -/
theorem ofString_le_iff_of_bmp {s t : String} (hs : ∀ c ∈ s.toList, c.toNat < 0x10000)
    (ht : ∀ c ∈ t.toList, c.toNat < 0x10000) : ofString s ≤ ofString t ↔ s ≤ t := by
  have hlt : ofString t < ofString s ↔ t < s := by
    rw [lt_iff_codeUnits_lt, String.lt_iff_toList_lt]
    calc List.Lex (· < ·) (ofString t).codeUnits (ofString s).codeUnits
        ↔ List.Lex (· < ·) ((ofString t).codeUnits.map Fin.val)
            ((ofString s).codeUnits.map Fin.val) := (lex_map_iff Fin.val_strictMono).symm
      _ ↔ List.Lex (· < ·) (t.toList.map Char.toNat) (s.toList.map Char.toNat) := by
        rw [map_val_codeUnits_ofString hs, map_val_codeUnits_ofString ht]
      _ ↔ List.Lex (· < ·) t.toList s.toList := lex_map_iff char_toNat_strictMono
  rw [← not_lt, hlt, not_lt]

/-- Two hexadecimal commit hashes sort alike in both orders. -/
theorem ofString_le_iff_of_bmp_hex :
    (∀ c ∈ "0a".toList, c.toNat < 0x10000) ∧ (∀ c ∈ "a0".toList, c.toNat < 0x10000) ∧
      (ofString "0a" ≤ ofString "a0" ↔ "0a" ≤ "a0") :=
  ⟨by decide, by decide, ofString_le_iff_of_bmp (by decide) (by decide)⟩

/-- Above, the orders differ: `U+10000` starts with a high surrogate, which
    sorts after the single code unit of `U+FFFF`. -/
theorem ofString_supplementary_lt :
    ofString "𐀀" < ofString "\uFFFF" ∧ "\uFFFF" < "𐀀" := by
  rw [lt_iff_codeUnits_lt, String.lt_iff_toList_lt]
  decide

end Hash

end Isl.Dag
