import TreeEdit.Text.Utf8

/-!
# What is written in UTF-8 is read back

The encoding of a character is the first piece of any bytes that start with it
(`pieces_encode_append`), so the lenient reading of a text that was written is that text
(`decodeLossy_encode`).
-/

namespace TreeEdit.Text.Utf8

/-! ## Bytes of an encoding -/

theorem leadOf_of_two {b : UInt8} (h : 0xC2 ≤ b.toNat) (h' : b.toNat ≤ 0xDF) :
    leadOf b = some (1, 0x80, 0xBF) := by
  simp only [leadOf, Bool.and_eq_true, decide_eq_true_eq, UInt8.le_iff_toNat_le,
    UInt8.reduceToNat]
  rw [if_pos ⟨h, h'⟩]

theorem leadOf_of_three {b : UInt8} (h : 0xE0 ≤ b.toNat) (h' : b.toNat ≤ 0xEF) :
    leadOf b = some (2, if b.toNat = 0xE0 then 0xA0 else 0x80,
      if b.toNat = 0xED then 0x9F else 0xBF) := by
  simp only [leadOf, Bool.and_eq_true, decide_eq_true_eq, UInt8.le_iff_toNat_le, beq_iff_eq,
    ← UInt8.toNat_inj, UInt8.reduceToNat]
  grind

theorem leadOf_of_four {b : UInt8} (h : 0xF0 ≤ b.toNat) (h' : b.toNat ≤ 0xF4) :
    leadOf b = some (3, if b.toNat = 0xF0 then 0x90 else 0x80,
      if b.toNat = 0xF4 then 0x8F else 0xBF) := by
  simp only [leadOf, Bool.and_eq_true, decide_eq_true_eq, UInt8.le_iff_toNat_le, beq_iff_eq,
    ← UInt8.toNat_inj, UInt8.reduceToNat]
  grind

/-- The byte that carries six bits after the lead byte. -/
def tail (n : Nat) : UInt8 :=
  UInt8.ofNat (n % 0x40 + 0x80)

theorem toNat_tail (n : Nat) : (tail n).toNat = n % 0x40 + 0x80 := by
  rw [tail, UInt8.toNat_ofNat']
  omega

theorem tailBits_tail (n : Nat) : tailBits (tail n) = n % 0x40 := by
  rw [tailBits, toNat_tail]
  omega

theorem isTail_tail (n : Nat) : isTail (tail n) = true := by
  have h := toNat_tail n
  simp only [isTail, Bool.and_eq_true, decide_eq_true_eq, UInt8.le_iff_toNat_le,
    UInt8.reduceToNat]
  omega

theorem tails_tail (k acc n : Nat) (bs : List UInt8) :
    tails (k + 1) acc (tail n :: bs) = tails k (64 * acc + n % 0x40) bs := by
  rw [tails, if_pos (isTail_tail n), tailBits_tail]

/-! ## Characters -/

theorem piece_one {v : Nat} (h : v ≤ 0x7F) (bs : List UInt8) :
    piece (UInt8.ofNat v) bs = (some (Char.ofNat v), bs) := by
  have hv : (UInt8.ofNat v).toNat = v := by
    rw [UInt8.toNat_ofNat']
    omega
  have hlt : UInt8.ofNat v < 0x80 := by
    rw [UInt8.lt_iff_toNat_lt, hv]
    exact Nat.lt_succ_of_le h
  unfold piece
  rw [if_pos hlt, hv]

/-- Several bytes, the second of which is in the range that the lead byte sets. -/
theorem piece_several {b : UInt8} {n v : Nat} {low high : UInt8} (hb : 0x80 ≤ b.toNat)
    (hlead : leadOf b = some (n, low, high)) (hlow : low.toNat ≤ v % 0x40 + 0x80)
    (hhigh : v % 0x40 + 0x80 ≤ high.toNat) (bs : List UInt8) :
    piece b (tail v :: bs) =
      let lead := if n = 1 then b.toNat % 32 else if n = 2 then b.toNat % 16 else b.toNat % 8
      let (bits, rest) := tails (n - 1) (64 * lead + v % 0x40) bs
      (bits.map Char.ofNat, rest) := by
  have hge : ¬ b < 0x80 := by
    rw [UInt8.lt_iff_toNat_lt]
    exact Nat.not_lt.mpr hb
  have hrange : (low ≤ tail v && tail v ≤ high) = true := by
    rw [Bool.and_eq_true, decide_eq_true_iff, decide_eq_true_iff, UInt8.le_iff_toNat_le,
      UInt8.le_iff_toNat_le, toNat_tail]
    exact ⟨hlow, hhigh⟩
  unfold piece
  rw [if_neg hge, hlead]
  dsimp only
  rw [if_pos hrange, tailBits_tail]

theorem piece_two {v : Nat} (h : 0x7F < v) (h' : v ≤ 0x7FF) (bs : List UInt8) :
    piece (UInt8.ofNat (v / 64 % 0x20 + 0xC0)) (tail v :: bs) = (some (Char.ofNat v), bs) := by
  have hb : (UInt8.ofNat (v / 64 % 0x20 + 0xC0)).toNat = v / 64 + 0xC0 := by
    rw [UInt8.toNat_ofNat']
    omega
  have hlow : 0x80 ≤ v % 0x40 + 0x80 := by omega
  have hhigh : v % 0x40 + 0x80 ≤ 0xBF := by omega
  rw [piece_several (by omega) (leadOf_of_two (by omega) (by omega)) hlow hhigh, hb]
  show (some (Char.ofNat (64 * ((v / 64 + 0xC0) % 32) + v % 0x40)), bs) = _
  rw [show 64 * ((v / 64 + 0xC0) % 32) + v % 0x40 = v by omega]

/-- The surrogates have no encoding. -/
theorem piece_three {v : Nat} (h : 0x7FF < v) (h' : v ≤ 0xFFFF) (hv : v < 0xD800 ∨ 0xDFFF < v)
    (bs : List UInt8) :
    piece (UInt8.ofNat (v / 4096 % 0x10 + 0xE0)) (tail (v / 64) :: tail v :: bs)
      = (some (Char.ofNat v), bs) := by
  have hb : (UInt8.ofNat (v / 4096 % 0x10 + 0xE0)).toNat = v / 4096 + 0xE0 := by
    rw [UInt8.toNat_ofNat']
    omega
  have hlead := leadOf_of_three (b := UInt8.ofNat (v / 4096 % 0x10 + 0xE0)) (by omega) (by omega)
  rw [hb] at hlead
  have hlow : (if v / 4096 + 0xE0 = 0xE0 then 0xA0 else 0x80 : UInt8).toNat
      ≤ v / 64 % 0x40 + 0x80 := by
    split
    · show 0xA0 ≤ _
      omega
    · show 0x80 ≤ _
      omega
  have hhigh : v / 64 % 0x40 + 0x80
      ≤ (if v / 4096 + 0xE0 = 0xED then 0x9F else 0xBF : UInt8).toNat := by
    split
    · show _ ≤ 0x9F
      omega
    · show _ ≤ 0xBF
      omega
  rw [piece_several (by omega) hlead hlow hhigh, hb]
  show ((tails 1 (64 * ((v / 4096 + 0xE0) % 16) + v / 64 % 0x40) (tail v :: bs)).1.map Char.ofNat,
    (tails 1 (64 * ((v / 4096 + 0xE0) % 16) + v / 64 % 0x40) (tail v :: bs)).2) = _
  rw [tails_tail]
  show (some (Char.ofNat (64 * (64 * ((v / 4096 + 0xE0) % 16) + v / 64 % 0x40) + v % 0x40)), bs) = _
  rw [show 64 * (64 * ((v / 4096 + 0xE0) % 16) + v / 64 % 0x40) + v % 0x40 = v by omega]

theorem piece_four {v : Nat} (h : 0xFFFF < v) (h' : v < 0x110000) (bs : List UInt8) :
    piece (UInt8.ofNat (v / 262144 % 0x08 + 0xF0))
        (tail (v / 4096) :: tail (v / 64) :: tail v :: bs)
      = (some (Char.ofNat v), bs) := by
  have hb : (UInt8.ofNat (v / 262144 % 0x08 + 0xF0)).toNat = v / 262144 + 0xF0 := by
    rw [UInt8.toNat_ofNat']
    omega
  have hlead := leadOf_of_four (b := UInt8.ofNat (v / 262144 % 0x08 + 0xF0)) (by omega) (by omega)
  rw [hb] at hlead
  have hlow : (if v / 262144 + 0xF0 = 0xF0 then 0x90 else 0x80 : UInt8).toNat
      ≤ v / 4096 % 0x40 + 0x80 := by
    split
    · show 0x90 ≤ _
      omega
    · show 0x80 ≤ _
      omega
  have hhigh : v / 4096 % 0x40 + 0x80
      ≤ (if v / 262144 + 0xF0 = 0xF4 then 0x8F else 0xBF : UInt8).toNat := by
    split
    · show _ ≤ 0x8F
      omega
    · show _ ≤ 0xBF
      omega
  rw [piece_several (by omega) hlead hlow hhigh, hb]
  show ((tails 2 (64 * ((v / 262144 + 0xF0) % 8) + v / 4096 % 0x40)
      (tail (v / 64) :: tail v :: bs)).1.map Char.ofNat,
    (tails 2 (64 * ((v / 262144 + 0xF0) % 8) + v / 4096 % 0x40)
      (tail (v / 64) :: tail v :: bs)).2) = _
  rw [tails_tail, tails_tail]
  show (some (Char.ofNat (64 * (64 * (64 * ((v / 262144 + 0xF0) % 8) + v / 4096 % 0x40)
    + v / 64 % 0x40) + v % 0x40)), bs) = _
  rw [show 64 * (64 * (64 * ((v / 262144 + 0xF0) % 8) + v / 4096 % 0x40)
    + v / 64 % 0x40) + v % 0x40 = v by omega]

/-- The encoding of a character is read as that character, whatever comes after it. -/
theorem pieces_encode_append (c : Char) (bs : List UInt8) :
    pieces (String.utf8EncodeChar c ++ bs) = some c :: pieces bs := by
  have hc : Char.ofNat c.val.toNat = c := Char.ofNat_toNat c
  have hvalid : c.val.toNat < 0xD800 ∨ 0xDFFF < c.val.toNat ∧ c.val.toNat < 0x110000 := c.valid
  have first {b : UInt8} {r : List UInt8} (h : piece b (r ++ bs) = (some c, bs)) :
      pieces (b :: r ++ bs) = some c :: pieces bs := by
    rw [List.cons_append, pieces, h]
  unfold String.utf8EncodeChar
  dsimp only
  split
  · rename_i h
    refine first (r := []) ?_
    rw [List.nil_append, piece_one h, hc]
  · split
    · rename_i h h'
      refine first (r := [_]) ((piece_two (Nat.lt_of_not_le h) h' bs).trans ?_)
      rw [hc]
    · split
      · rename_i h h'
        refine first (r := [_, _]) ((piece_three (Nat.lt_of_not_le h) h' ?_ bs).trans ?_)
        · exact hvalid.imp_right And.left
        · rw [hc]
      · rename_i h
        refine first (r := [_, _, _]) ((piece_four (Nat.lt_of_not_le h) ?_ bs).trans ?_)
        · omega
        · rw [hc]

theorem pieces_encode (s : String) : pieces (encode s) = s.toList.map some := by
  rw [encode]
  induction s.toList with
  | nil => rw [List.flatMap_nil, pieces, List.map_nil]
  | cons c cs ih => rw [List.flatMap_cons, pieces_encode_append, ih, List.map_cons]

/-- Reading what was written gives the text back. -/
theorem decodeLossy_encode (s : String) : decodeLossy (encode s) = s := by
  rw [decodeLossy, pieces_encode, List.map_map]
  show String.ofList (s.toList.map id) = s
  rw [List.map_id, String.ofList_toList]

end TreeEdit.Text.Utf8
