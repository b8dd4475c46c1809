import GuardLint.Text.Utf8

/-!
# The text of the bytes of a text

Each of the four lengths of a character has a lemma on its first byte, which says how many bytes
follow and where the second has to lie. Main statement: the bytes of a text are read as that text
(`decode_encode`).
-/

namespace GuardLint.Text.Utf8

/-- The first byte of a character of two. -/
theorem begin?_two : ∀ n : Fin 32, 2 ≤ n →
    begin? (UInt8.ofNat (n + 0xc0)) =
      some ⟨1, 0x80, 0xbf, n, 1, UInt8.ofNat (n + 0xc0)⟩ := by
  decide

/-- The first byte of a character of three: the second byte may not make the character one of two
bytes, or a surrogate. -/
theorem begin?_three : ∀ n : Fin 16,
    begin? (UInt8.ofNat (n + 0xe0)) =
      some ⟨2, if n = 0 then 0xa0 else 0x80, if n = 13 then 0x9f else 0xbf, n, 1,
        UInt8.ofNat (n + 0xe0)⟩ := by
  decide

/-- The first byte of a character of four: the second byte may not make the character one of three
bytes, or put it past the last. -/
theorem begin?_four : ∀ n : Fin 5,
    begin? (UInt8.ofNat (n + 0xf0)) =
      some ⟨3, if n = 0 then 0x90 else 0x80, if n = 4 then 0x8f else 0xbf, n, 1,
        UInt8.ofNat (n + 0xf0)⟩ := by
  decide

/-- A byte made of a number below 256 is that number. -/
theorem toNat_byte {n : Nat} (h : n < 256) : (UInt8.ofNat n).toNat = n := by
  simp; omega

/-- A byte that begins a longer character leaves it incomplete. -/
theorem decodeFrom_begin {offset : Nat} {b : UInt8} {p : Utf8Partial} (bytes : List UInt8)
    (h : begin? b = some p) (hp : p.missing ≠ 0) :
    decodeFrom offset none (b :: bytes) = decodeFrom (offset + 1) (some p) bytes := by
  simp [decodeFrom, h, hp]

/-- A byte in range that is not the last of its character leaves it incomplete. -/
theorem decodeFrom_continue {offset : Nat} {b : UInt8} {p : Utf8Partial} (bytes : List UInt8)
    (low : p.low ≤ b.toNat) (high : b.toNat ≤ p.high) (hp : 2 ≤ p.missing) :
    decodeFrom offset (some p) (b :: bytes) =
      decodeFrom (offset + 1) (some ⟨p.missing - 1, 0x80, 0xbf, p.bits * 64 + (b.toNat - 0x80),
        p.taken + 1, p.first⟩) bytes := by
  have : p.missing - 1 ≠ 0 := by omega
  simp [decodeFrom, continue?, low, high, this]

/-- A byte in range that is the last of its character completes it. -/
theorem decodeFrom_last {offset : Nat} {b : UInt8} {p : Utf8Partial} (bytes : List UInt8)
    (low : p.low ≤ b.toNat) (high : b.toNat ≤ p.high) (hp : p.missing = 1) :
    decodeFrom offset (some p) (b :: bytes) =
      (decodeFrom (offset + 1) none bytes).map
        (Char.ofNat (p.bits * 64 + (b.toNat - 0x80)) :: ·) := by
  simp [decodeFrom, continue?, low, high, hp]

/-- The bytes of a character are read as that character. -/
theorem decodeFrom_encodeChar (offset : Nat) (c : Char) (bytes : List UInt8) :
    decodeFrom offset none (String.utf8EncodeChar c ++ bytes) =
      (decodeFrom (offset + (String.utf8EncodeChar c).length) none bytes).map (c :: ·) := by
  have hc : Char.ofNat c.val.toNat = c := Char.ofNat_toNat c
  have hv : c.val.toNat < 0xd800 ∨ (0xdfff < c.val.toNat ∧ c.val.toNat < 0x110000) := by
    simpa [UInt32.isValidChar, Nat.isValidChar] using c.valid
  unfold String.utf8EncodeChar
  generalize c.val.toNat = v at *
  simp only
  have h1 := toNat_byte (n := v % 64 + 0x80) (by omega)
  have h2 := toNat_byte (n := v / 64 % 64 + 0x80) (by omega)
  have h3 := toNat_byte (n := v / 4096 % 64 + 0x80) (by omega)
  split
  · have hb : begin? (UInt8.ofNat v) = some ⟨0, 0, 0, v, 1, UInt8.ofNat v⟩ := by
      rename_i h
      simp only [begin?, toNat_byte (n := v) (by omega), if_pos h]
    simp only [List.cons_append, List.nil_append, decodeFrom, hb, ↓reduceIte, hc, List.length_cons,
      List.length_nil]
  split
  · have hq : v / 64 % 32 = v / 64 := by omega
    have hb := begin?_two ⟨v / 64, by omega⟩ (by simp only [Fin.le_def]; omega)
    have hn : v / 64 * 64 + (v % 64 + 128 - 128) = v := by omega
    simp only [List.cons_append, List.nil_append, List.length_cons, List.length_nil, hq]
    rw [decodeFrom_begin _ hb (by simp), decodeFrom_last _ (by simp only; omega)
      (by simp only; omega) rfl, h1, hn, hc]
  split
  · have hq : v / 4096 % 16 = v / 4096 := by omega
    have hb := begin?_three ⟨v / 4096, by omega⟩
    have hn : (v / 4096 * 64 + (v / 64 % 64 + 128 - 128)) * 64 + (v % 64 + 128 - 128) = v := by
      omega
    simp only [List.cons_append, List.nil_append, List.length_cons, List.length_nil, hq]
    rw [decodeFrom_begin _ hb (by simp), decodeFrom_continue, decodeFrom_last, h2, h1, hn, hc]
    all_goals simp only [h1, h2, Fin.ext_iff]
    all_goals (try split) <;> omega
  · have hq : v / 262144 % 8 = v / 262144 := by omega
    have hb := begin?_four ⟨v / 262144, by omega⟩
    have hn : ((v / 262144 * 64 + (v / 4096 % 64 + 128 - 128)) * 64 +
        (v / 64 % 64 + 128 - 128)) * 64 + (v % 64 + 128 - 128) = v := by
      omega
    simp only [List.cons_append, List.nil_append, List.length_cons, List.length_nil, hq]
    rw [decodeFrom_begin _ hb (by simp), decodeFrom_continue, decodeFrom_continue,
      decodeFrom_last, h3, h2, h1, hn, hc]
    all_goals simp only [h1, h2, h3, Fin.ext_iff]
    all_goals (try split) <;> omega

/-- The bytes of a text are read as that text. -/
theorem decode_encode (text : List Char) : decode (encode text) = .ok text := by
  suffices h : ∀ offset, decodeFrom offset none (encode text) = .ok text from h 0
  induction text with
  | nil => intro offset; rfl
  | cons c text ih =>
    intro offset
    rw [encode] at ih ⊢
    rw [List.flatMap_cons, decodeFrom_encodeChar, ih]
    rfl

end GuardLint.Text.Utf8
