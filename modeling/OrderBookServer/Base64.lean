import OrderBookServer.Decimal

/-!
`Utils::base64_encode` and `Utils::base64_decode`. Bytes go in groups of three to groups of four
characters and back; what is left at the end fills a shorter group. The lengths are counted in 32
bits.
-/
namespace OrderBookServer.Base64

def base64Chars : Text :=
  "ABCDEFGHIJKLMNOPQRSTUVWXYZabcdefghijklmnopqrstuvwxyz0123456789+/".toList

def isBase64 (c : Char) : Bool := c.isAlphanum || c == '+' || c == '/'

section Model

/-- `char_array_4` made of `char_array_3`. -/
def sextets (x y z : UInt8) : List UInt8 :=
  [(x &&& 0xfc) >>> 2, ((x &&& 0x03) <<< 4) + ((y &&& 0xf0) >>> 4),
    ((y &&& 0x0f) <<< 2) + ((z &&& 0xc0) >>> 6), z &&& 0x3f]

/-- `char_array_3` made of `char_array_4`. -/
def octets (p q r s : UInt8) : List UInt8 :=
  [(p <<< 2) + ((q &&& 0x30) >>> 4), ((q &&& 0xf) <<< 4) + ((r &&& 0x3c) >>> 2),
    ((r &&& 0x3) <<< 6) + s]

def charAt (i : UInt8) : Char := base64Chars.getD i.toNat '\x00'

/-- `base64_chars.find`, cut off to a byte: `npos` is 255. -/
def find (c : Char) : UInt8 :=
  match base64Chars.idxOf? c with
  | some i => UInt8.ofNat i
  | none => 255

/-- The bytes that are left when the buffer is at its end: the array is filled up with zeros. -/
def encodeRest : List UInt8 → Text
  | [] => []
  | pending =>
    ((sextets (pending.getD 0 0) (pending.getD 1 0) (pending.getD 2 0)).take
      (pending.length + 1)).map charAt ++ List.replicate (3 - pending.length) '='

/-- The loop over the buffer; `pending` is `char_array_3` up to `i`. -/
def encodeFrom : List UInt8 → List UInt8 → Text → Text
  | [], pending, ret => ret ++ encodeRest pending
  | byte :: buf, pending, ret =>
    match pending ++ [byte] with
    | [x, y, z] => encodeFrom buf [] (ret ++ (sextets x y z).map charAt)
    | pending => encodeFrom buf pending ret

def encodeBytes (buf : List UInt8) : Text := encodeFrom buf [] []

/-- `buf` has `bufLen` bytes or more. -/
def base64Encode (buf : List UInt8) (bufLen : UInt32) : Text :=
  encodeBytes (buf.take bufLen.toNat)

/-- The characters that are left when the loop stops: the array is filled up with NULs, of which
`find` makes 255. -/
def decodeRest : Text → List UInt8
  | [] => []
  | pending =>
    (octets (find (pending.getD 0 '\x00')) (find (pending.getD 1 '\x00'))
      (find (pending.getD 2 '\x00')) (find (pending.getD 3 '\x00'))).take (pending.length - 1)

/-- The loop over the string; `pending` is `char_array_4` up to `i`. -/
def decodeFrom : Text → Text → List UInt8 → List UInt8
  | [], pending, ret => ret ++ decodeRest pending
  | c :: rest, pending, ret =>
    if c ≠ '=' ∧ isBase64 c then
      match pending ++ [c] with
      | [p, q, r, s] => decodeFrom rest [] (ret ++ octets (find p) (find q) (find r) (find s))
      | pending => decodeFrom rest pending ret
    else ret ++ decodeRest pending

def decodeText (encodedString : Text) : List UInt8 := decodeFrom encodedString [] []

/-- The turns that `in_len` allows, which has the size as an `int`. From a negative one it does not
come to 0 before the end of the string, and what its overflow does then is left out. -/
def turnsOf (size : ℕ) : ℕ :=
  if 0 ≤ (UInt32.ofNat size).toInt32.toInt then (UInt32.ofNat size).toInt32.toInt.toNat else size

/-- Nothing is said of what `in_` does past 2147483647. -/
def base64Decode (encodedString : Text) : List UInt8 :=
  decodeText (encodedString.take (turnsOf encodedString.length))

end Model

example : base64Encode [77, 97] 2 = "TWE=".toList := by decide

section Bits

/-- The masks and shifts of one byte as quotients and remainders. -/
theorem toNat_bits (x : UInt8) :
    ((x &&& 0xfc) >>> 2).toNat = x.toNat / 4 ∧ ((x &&& 0x03) <<< 4).toNat = x.toNat % 4 * 16 ∧
    ((x &&& 0xf0) >>> 4).toNat = x.toNat / 16 ∧ (x &&& 0x0f).toNat = x.toNat % 16 ∧
    ((x &&& 0xc0) >>> 6).toNat = x.toNat / 64 ∧ (x &&& 0x3f).toNat = x.toNat % 64 ∧
    (x <<< 2).toNat = x.toNat * 4 % 256 ∧ ((x &&& 0x30) >>> 4).toNat = x.toNat / 16 % 4 ∧
    ((x &&& 0xf) <<< 4).toNat = x.toNat % 16 * 16 ∧ ((x &&& 0x3c) >>> 2).toNat = x.toNat / 4 % 16 ∧
    ((x &&& 0x3) <<< 6).toNat = x.toNat % 4 * 64 := by
  have hall : ∀ n : Fin 256,
      let x : UInt8 := ⟨⟨n⟩⟩
      ((x &&& 0xfc) >>> 2).toNat = x.toNat / 4 ∧ ((x &&& 0x03) <<< 4).toNat = x.toNat % 4 * 16 ∧
      ((x &&& 0xf0) >>> 4).toNat = x.toNat / 16 ∧ (x &&& 0x0f).toNat = x.toNat % 16 ∧
      ((x &&& 0xc0) >>> 6).toNat = x.toNat / 64 ∧ (x &&& 0x3f).toNat = x.toNat % 64 ∧
      (x <<< 2).toNat = x.toNat * 4 % 256 ∧ ((x &&& 0x30) >>> 4).toNat = x.toNat / 16 % 4 ∧
      ((x &&& 0xf) <<< 4).toNat = x.toNat % 16 * 16 ∧
      ((x &&& 0x3c) >>> 2).toNat = x.toNat / 4 % 16 ∧
      ((x &&& 0x3) <<< 6).toNat = x.toNat % 4 * 64 := by decide +kernel
  exact hall x.toBitVec.toFin

variable {p q r s x y z : UInt8}

/-- The first byte comes back, whatever the second byte of the group is. -/
theorem octet_first (x y : UInt8) : (((x &&& 0xfc) >>> 2) <<< 2) +
    (((((x &&& 0x03) <<< 4) + ((y &&& 0xf0) >>> 4)) &&& 0x30) >>> 4) = x := by
  have hx := x.toNat_lt
  have hy := y.toNat_lt
  rw [← UInt8.toNat_inj]
  simp only [UInt8.toNat_add, toNat_bits]
  omega

theorem octet_second (x y z : UInt8) :
    (((((x &&& 0x03) <<< 4) + ((y &&& 0xf0) >>> 4)) &&& 0xf) <<< 4) +
      (((((y &&& 0x0f) <<< 2) + ((z &&& 0xc0) >>> 6)) &&& 0x3c) >>> 2) = y := by
  have hy := y.toNat_lt
  have hz := z.toNat_lt
  rw [← UInt8.toNat_inj]
  simp only [UInt8.toNat_add, toNat_bits]
  omega

theorem octet_third (y z : UInt8) :
    (((((y &&& 0x0f) <<< 2) + ((z &&& 0xc0) >>> 6)) &&& 0x3) <<< 6) + (z &&& 0x3f) = z := by
  have hz := z.toNat_lt
  rw [← UInt8.toNat_inj]
  simp only [UInt8.toNat_add, toNat_bits]
  omega

theorem octets_sextets (x y z : UInt8) : octets ((x &&& 0xfc) >>> 2)
    (((x &&& 0x03) <<< 4) + ((y &&& 0xf0) >>> 4)) (((y &&& 0x0f) <<< 2) + ((z &&& 0xc0) >>> 6))
      (z &&& 0x3f) = [x, y, z] := by
  rw [octets, octet_first, octet_second, octet_third]

/-- A sextet has six bits. -/
theorem sextets_lt {i : UInt8} (hi : i ∈ sextets x y z) : i.toNat < 64 := by
  have hx := x.toNat_lt
  have hy := y.toNat_lt
  have hz := z.toNat_lt
  simp only [sextets, List.mem_cons, List.not_mem_nil, or_false] at hi
  rcases hi with rfl | rfl | rfl | rfl
  all_goals
    simp only [UInt8.toNat_add, toNat_bits]
    omega

theorem sextet_first (hp : p.toNat < 64) (q : UInt8) :
    (((p <<< 2) + ((q &&& 0x30) >>> 4)) &&& 0xfc) >>> 2 = p := by
  rw [← UInt8.toNat_inj]
  simp only [UInt8.toNat_add, toNat_bits]
  omega

theorem sextet_second (p : UInt8) (hq : q.toNat < 64) (r : UInt8) :
    ((((p <<< 2) + ((q &&& 0x30) >>> 4)) &&& 0x03) <<< 4) +
      (((((q &&& 0xf) <<< 4) + ((r &&& 0x3c) >>> 2)) &&& 0xf0) >>> 4) = q := by
  rw [← UInt8.toNat_inj]
  simp only [UInt8.toNat_add, toNat_bits]
  omega

theorem sextet_third (q : UInt8) (hr : r.toNat < 64) (hs : s.toNat < 64) :
    (((((q &&& 0xf) <<< 4) + ((r &&& 0x3c) >>> 2)) &&& 0x0f) <<< 2) +
      (((((r &&& 0x3) <<< 6) + s) &&& 0xc0) >>> 6) = r := by
  rw [← UInt8.toNat_inj]
  simp only [UInt8.toNat_add, toNat_bits]
  omega

theorem sextet_fourth (r : UInt8) (hs : s.toNat < 64) :
    (((r &&& 0x3) <<< 6) + s) &&& 0x3f = s := by
  rw [← UInt8.toNat_inj]
  simp only [UInt8.toNat_add, toNat_bits]
  omega

theorem sextets_octets (hp : p.toNat < 64) (hq : q.toNat < 64) (hr : r.toNat < 64)
    (hs : s.toNat < 64) : sextets ((p <<< 2) + ((q &&& 0x30) >>> 4))
      (((q &&& 0xf) <<< 4) + ((r &&& 0x3c) >>> 2)) (((r &&& 0x3) <<< 6) + s) = [p, q, r, s] := by
  rw [sextets, sextet_first hp, sextet_second p hq, sextet_third q hr hs, sextet_fourth r hs]

/-- The second sextet of a group that ends with its first byte has four spare bits. -/
theorem sextet_second_last (p : UInt8) (hq : q.toNat < 64) :
    ((((p <<< 2) + ((q &&& 0x30) >>> 4)) &&& 0x03) <<< 4) + (((0 : UInt8) &&& 0xf0) >>> 4) = q ↔
      q.toNat % 16 = 0 := by
  rw [← UInt8.toNat_inj]
  simp only [UInt8.toNat_add, toNat_bits, UInt8.toNat_zero]
  omega

/-- The third sextet of a group that ends with its second byte has two spare bits. -/
theorem sextet_third_last (q : UInt8) (hr : r.toNat < 64) :
    (((((q &&& 0xf) <<< 4) + ((r &&& 0x3c) >>> 2)) &&& 0x0f) <<< 2) +
      (((0 : UInt8) &&& 0xc0) >>> 6) = r ↔ r.toNat % 4 = 0 := by
  rw [← UInt8.toNat_inj]
  simp only [UInt8.toNat_add, toNat_bits, UInt8.toNat_zero]
  omega

end Bits

section Alphabet

theorem charAt_find_lt {i : UInt8} (hi : i.toNat < 64) :
    isBase64 (charAt i) = true ∧ find (charAt i) = i := by
  have hall : ∀ n : Fin 64, isBase64 (charAt (UInt8.ofNat n)) = true ∧
      find (charAt (UInt8.ofNat n)) = UInt8.ofNat n := by decide +kernel
  have hat := hall ⟨i.toNat, hi⟩
  rwa [UInt8.ofNat_toNat] at hat

/-- The characters that the decoder takes are those of the table. -/
theorem find_of_isBase64 {c : Char} (hc : isBase64 c = true) :
    (find c).toNat < 64 ∧ charAt (find c) = c := by
  have hall : ∀ n : Fin 128, isBase64 (Char.ofNat n) = true →
      (find (Char.ofNat n)).toNat < 64 ∧ charAt (find (Char.ofNat n)) = Char.ofNat n := by
    decide +kernel
  have hlt : c.toNat < 128 := by
    refine Nat.lt_of_not_le fun hge => ?_
    change (((decide (c.val ≥ 65 ∧ c.val ≤ 90) || c.val ≥ 97 && c.val ≤ 122) ||
      c.val ≥ 48 && c.val ≤ 57) || c == '+' || c == '/') = true at hc
    simp only [Bool.or_eq_true, Bool.and_eq_true, decide_eq_true_eq, beq_iff_eq] at hc
    have hval : c.toNat ≤ 122 := by
      rcases hc with (((⟨_, h⟩ | ⟨_, h⟩) | ⟨_, h⟩) | rfl) | rfl
      · exact Nat.le_trans h (by decide)
      · exact h
      · exact Nat.le_trans h (by decide)
      · decide
      · decide
    omega
  have hat := hall ⟨c.toNat, hlt⟩
  rw [Char.ofNat_toNat] at hat
  exact hat hc

end Alphabet

section Loops

theorem encodeFrom_eq (buf pending : List UInt8) (ret : Text) :
    encodeFrom buf pending ret = ret ++ encodeFrom buf pending [] := by
  induction buf generalizing pending ret with
  | nil => simp [encodeFrom]
  | cons byte buf ih =>
    rw [encodeFrom, encodeFrom]
    split
    · rw [ih, ih [] ([] ++ _), List.nil_append, List.append_assoc]
    · exact ih _ _

theorem decodeFrom_eq (text pending : Text) (ret : List UInt8) :
    decodeFrom text pending ret = ret ++ decodeFrom text pending [] := by
  induction text generalizing pending ret with
  | nil => simp [decodeFrom]
  | cons c text ih =>
    rw [decodeFrom, decodeFrom]
    split
    · split
      · rw [ih, ih [] ([] ++ _), List.nil_append, List.append_assoc]
      · exact ih _ _
    · rw [List.nil_append]

/-- What follows the first character that is not of the table is not read. -/
theorem decodeFrom_takeWhile (text pending : Text) (ret : List UInt8) :
    decodeFrom text pending ret = decodeFrom (text.takeWhile isBase64) pending ret := by
  induction text generalizing pending ret with
  | nil => rfl
  | cons c text ih =>
    cases hc : isBase64 c with
    | true =>
      rw [List.takeWhile_cons_of_pos hc, decodeFrom, decodeFrom]
      simp only [ih]
    | false =>
      have hnot : ¬ isBase64 c = true := Bool.eq_false_iff.1 hc
      have hstop : ¬ (c ≠ '=' ∧ isBase64 c = true) := fun h => hnot h.2
      rw [List.takeWhile_cons_of_neg hnot]
      exact if_neg hstop

/-- Three bytes make four characters. -/
theorem encodeBytes_group (x y z : UInt8) (buf : List UInt8) :
    encodeBytes (x :: y :: z :: buf) = (sextets x y z).map charAt ++ encodeBytes buf :=
  encodeFrom_eq buf [] _

/-- One byte is left: it makes two characters. -/
theorem encodeBytes_one (x : UInt8) : encodeBytes [x] =
    [charAt ((x &&& 0xfc) >>> 2), charAt (((x &&& 0x03) <<< 4) + (((0 : UInt8) &&& 0xf0) >>> 4)),
      '=', '='] := by
  simp [encodeBytes, encodeFrom, encodeRest, sextets]

/-- Two bytes are left: they make three characters. -/
theorem encodeBytes_two (x y : UInt8) : encodeBytes [x, y] =
    [charAt ((x &&& 0xfc) >>> 2), charAt (((x &&& 0x03) <<< 4) + ((y &&& 0xf0) >>> 4)),
      charAt (((y &&& 0x0f) <<< 2) + (((0 : UInt8) &&& 0xc0) >>> 6)), '='] := by
  simp [encodeBytes, encodeFrom, encodeRest, sextets]

theorem ne_equals {c : Char} (hc : isBase64 c = true) : c ≠ '=' := by
  rintro rfl
  cases hc

/-- Four characters make three bytes. -/
theorem decodeText_group {p q r s : Char} (hp : isBase64 p = true) (hq : isBase64 q = true)
    (hr : isBase64 r = true) (hs : isBase64 s = true) (text : Text) :
    decodeText (p :: q :: r :: s :: text) =
      octets (find p) (find q) (find r) (find s) ++ decodeText text := by
  simp only [decodeText, decodeFrom, ne_equals hp, ne_equals hq, ne_equals hr, ne_equals hs, hp,
    hq, hr, hs, ne_eq, not_false_eq_true, and_self, if_true, List.nil_append, List.cons_append]
  exact decodeFrom_eq text [] _

theorem decodeText_two {p q : Char} (hp : isBase64 p = true) (hq : isBase64 q = true)
    (rest : Text) : decodeText (p :: q :: '=' :: rest) =
      [(find p <<< 2) + ((find q &&& 0x30) >>> 4)] := by
  simp only [decodeText, decodeFrom, ne_equals hp, ne_equals hq, hp, hq, ne_eq,
    not_false_eq_true, and_self, if_true, List.nil_append, List.cons_append, not_true_eq_false,
    false_and, if_false]
  rfl

theorem decodeText_three {p q r : Char} (hp : isBase64 p = true) (hq : isBase64 q = true)
    (hr : isBase64 r = true) (rest : Text) : decodeText (p :: q :: r :: '=' :: rest) =
      [(find p <<< 2) + ((find q &&& 0x30) >>> 4),
        ((find q &&& 0xf) <<< 4) + ((find r &&& 0x3c) >>> 2)] := by
  simp only [decodeText, decodeFrom, ne_equals hp, ne_equals hq, ne_equals hr, hp, hq, hr, ne_eq,
    not_false_eq_true, and_self, if_true, List.nil_append, List.cons_append, not_true_eq_false,
    false_and, if_false]
  rfl

end Loops

section RoundTrip

/-- The texts that encode bytes: groups of four characters of the table, the last of which may end
with one or two `=` for the characters whose bits it does not need. -/
inductive Canonical : Text → Prop
  | nil : Canonical []
  | two {p q : Char} (hp : isBase64 p = true) (hq : isBase64 q = true)
      (hspare : (find q).toNat % 16 = 0) : Canonical [p, q, '=', '=']
  | three {p q r : Char} (hp : isBase64 p = true) (hq : isBase64 q = true)
      (hr : isBase64 r = true) (hspare : (find r).toNat % 4 = 0) : Canonical [p, q, r, '=']
  | group {p q r s : Char} {text : Text} (hp : isBase64 p = true) (hq : isBase64 q = true)
      (hr : isBase64 r = true) (hs : isBase64 s = true) (h : Canonical text) :
      Canonical (p :: q :: r :: s :: text)

theorem charAt_sextets {x y z : UInt8} {i : UInt8} (hi : i ∈ sextets x y z) :
    isBase64 (charAt i) = true ∧ find (charAt i) = i := charAt_find_lt (sextets_lt hi)

theorem decode_encode : ∀ buf : List UInt8, decodeText (encodeBytes buf) = buf
  | [] => rfl
  | [x] => by
    obtain ⟨hp, hfp⟩ := charAt_sextets (x := x) (y := 0) (z := 0) (List.mem_cons_self ..)
    obtain ⟨hq, hfq⟩ := charAt_sextets (x := x) (y := 0) (z := 0)
      (List.mem_cons_of_mem _ (List.mem_cons_self ..))
    rw [encodeBytes_one, decodeText_two hp hq ['='], hfp, hfq, octet_first]
  | [x, y] => by
    obtain ⟨hp, hfp⟩ := charAt_sextets (x := x) (y := y) (z := 0) (List.mem_cons_self ..)
    obtain ⟨hq, hfq⟩ := charAt_sextets (x := x) (y := y) (z := 0)
      (List.mem_cons_of_mem _ (List.mem_cons_self ..))
    obtain ⟨hr, hfr⟩ := charAt_sextets (x := x) (y := y) (z := 0)
      (List.mem_cons_of_mem _ (List.mem_cons_of_mem _ (List.mem_cons_self ..)))
    rw [encodeBytes_two, decodeText_three hp hq hr [], hfp, hfq, hfr, octet_first, octet_second]
  | x :: y :: z :: buf => by
    obtain ⟨hp, hfp⟩ := charAt_sextets (x := x) (y := y) (z := z) (List.mem_cons_self ..)
    obtain ⟨hq, hfq⟩ := charAt_sextets (x := x) (y := y) (z := z)
      (List.mem_cons_of_mem _ (List.mem_cons_self ..))
    obtain ⟨hr, hfr⟩ := charAt_sextets (x := x) (y := y) (z := z)
      (List.mem_cons_of_mem _ (List.mem_cons_of_mem _ (List.mem_cons_self ..)))
    obtain ⟨hs, hfs⟩ := charAt_sextets (x := x) (y := y) (z := z)
      (List.mem_cons_of_mem _ (List.mem_cons_of_mem _ (List.mem_cons_of_mem _
        (List.mem_cons_self ..))))
    have hgroup := decodeText_group hp hq hr hs (encodeBytes buf)
    rw [hfp, hfq, hfr, hfs, octets_sextets, decode_encode buf] at hgroup
    rw [encodeBytes_group]
    exact hgroup

theorem length_encode : ∀ buf : List UInt8,
    (encodeBytes buf).length = 4 * ((buf.length + 2) / 3)
  | [] => rfl
  | [x] => by
    rw [encodeBytes_one]
    simp only [List.length_cons, List.length_nil]
  | [x, y] => by
    rw [encodeBytes_two]
    simp only [List.length_cons, List.length_nil]
  | x :: y :: z :: buf => by
    rw [encodeBytes_group, List.length_append, length_encode buf, List.length_map, sextets]
    simp only [List.length_cons, List.length_nil]
    omega

theorem canonical_encode : ∀ buf : List UInt8, Canonical (encodeBytes buf)
  | [] => Canonical.nil
  | [x] => by
    obtain ⟨hp, -⟩ := charAt_sextets (x := x) (y := 0) (z := 0) (List.mem_cons_self ..)
    obtain ⟨hq, hfq⟩ := charAt_sextets (x := x) (y := 0) (z := 0)
      (List.mem_cons_of_mem _ (List.mem_cons_self ..))
    rw [encodeBytes_one]
    refine Canonical.two hp hq ?_
    rw [hfq]
    simp only [UInt8.toNat_add, toNat_bits, UInt8.toNat_zero]
    omega
  | [x, y] => by
    obtain ⟨hp, -⟩ := charAt_sextets (x := x) (y := y) (z := 0) (List.mem_cons_self ..)
    obtain ⟨hq, -⟩ := charAt_sextets (x := x) (y := y) (z := 0)
      (List.mem_cons_of_mem _ (List.mem_cons_self ..))
    obtain ⟨hr, hfr⟩ := charAt_sextets (x := x) (y := y) (z := 0)
      (List.mem_cons_of_mem _ (List.mem_cons_of_mem _ (List.mem_cons_self ..)))
    rw [encodeBytes_two]
    refine Canonical.three hp hq hr ?_
    rw [hfr]
    simp only [UInt8.toNat_add, toNat_bits, UInt8.toNat_zero]
    omega
  | x :: y :: z :: buf => by
    have hall : ∀ i ∈ sextets x y z, isBase64 (charAt i) = true :=
      fun i hi => (charAt_sextets hi).1
    rw [encodeBytes_group]
    simp only [sextets, List.forall_mem_cons] at hall
    obtain ⟨hp, hq, hr, hs, -⟩ := hall
    exact Canonical.group hp hq hr hs (canonical_encode buf)

/-- Decoding loses nothing of a canonical text. -/
theorem encode_decode {text : Text} (h : Canonical text) :
    encodeBytes (decodeText text) = text := by
  induction h with
  | nil => rfl
  | two hp hq hspare =>
    obtain ⟨hlp, hcp⟩ := find_of_isBase64 hp
    obtain ⟨hlq, hcq⟩ := find_of_isBase64 hq
    rw [decodeText_two hp hq, encodeBytes_one, sextet_first hlp,
      (sextet_second_last _ hlq).2 hspare, hcp, hcq]
  | three hp hq hr hspare =>
    obtain ⟨hlp, hcp⟩ := find_of_isBase64 hp
    obtain ⟨hlq, hcq⟩ := find_of_isBase64 hq
    obtain ⟨hlr, hcr⟩ := find_of_isBase64 hr
    rw [decodeText_three hp hq hr, encodeBytes_two, sextet_first hlp, sextet_second _ hlq,
      (sextet_third_last _ hlr).2 hspare, hcp, hcq, hcr]
  | group hp hq hr hs _ ih =>
    obtain ⟨hlp, hcp⟩ := find_of_isBase64 hp
    obtain ⟨hlq, hcq⟩ := find_of_isBase64 hq
    obtain ⟨hlr, hcr⟩ := find_of_isBase64 hr
    obtain ⟨hls, hcs⟩ := find_of_isBase64 hs
    rw [decodeText_group hp hq hr hs, octets, List.cons_append, List.cons_append,
      List.cons_append, List.nil_append, encodeBytes_group, sextets_octets hlp hlq hlr hls, ih]
    simp only [List.map_cons, List.map_nil, hcp, hcq, hcr, hcs, List.cons_append, List.nil_append]

theorem length_decodeFrom_le (text pending : Text) :
    (decodeFrom text pending []).length ≤ text.length + pending.length := by
  have hrest : ∀ pending : Text, (decodeRest pending).length ≤ pending.length := by
    intro pending
    cases pending with
    | nil => exact Nat.le_refl 0
    | cons c pending =>
      unfold decodeRest
      rw [List.length_take]
      exact Nat.le_trans (Nat.min_le_left _ _) (Nat.sub_le _ _)
  induction text generalizing pending with
  | nil =>
    rw [decodeFrom, List.nil_append]
    exact Nat.le_trans (hrest pending) (Nat.le_add_left _ _)
  | cons c text ih =>
    rw [decodeFrom]
    split
    · split
      · next p q r s hgroup =>
        have hlength := congrArg List.length hgroup
        simp only [List.length_append, List.length_cons, List.length_nil] at hlength
        rw [decodeFrom_eq, List.length_append]
        have hle := ih []
        simp only [octets, List.nil_append, List.length_cons, List.length_nil] at hle ⊢
        omega
      · have hle := ih (pending ++ [c])
        simp only [List.length_append, List.length_cons, List.length_nil] at hle ⊢
        omega
    · rw [List.nil_append]
      exact Nat.le_trans (hrest pending) (Nat.le_add_left _ _)

theorem base64Encode_eq {buf : List UInt8} (h : buf.length < 4294967296) :
    base64Encode buf (UInt32.ofNat buf.length) = encodeBytes buf := by
  have hlength : (UInt32.ofNat buf.length).toNat = buf.length := Nat.mod_eq_of_lt h
  rw [base64Encode, hlength, List.take_length]

theorem base64Decode_eq {text : Text} (h : text.length < 2147483648) :
    base64Decode text = decodeText text := by
  have hint : (UInt32.ofNat text.length).toInt32.toInt = (text.length : ℤ).bmod 4294967296 :=
    Int32.toInt_ofNat'
  have hturns : turnsOf text.length = text.length := by
    unfold turnsOf
    rw [hint, Int.bmod_eq_of_le_mul_two (by omega) (by omega), if_pos (Int.natCast_nonneg _),
      Int.toNat_natCast]
  rw [base64Decode, hturns, List.take_length]

/-- The two functions are inverse to each other between the bytes and the canonical texts, as long
as the text is shorter than the greatest `int`; a text of any other form is not what its bytes
encode to, as nothing is read from its first character on that is not of the table. -/
theorem encode_decode_iff_canonical :
    (∀ buf : List UInt8, 4 * ((buf.length + 2) / 3) < 2147483648 →
      base64Decode (base64Encode buf (UInt32.ofNat buf.length)) = buf ∧
        (base64Encode buf (UInt32.ofNat buf.length)).length = 4 * ((buf.length + 2) / 3)) ∧
    ∀ text : Text, text.length < 2147483648 →
      (base64Encode (base64Decode text) (UInt32.ofNat (base64Decode text).length) = text ↔
        Canonical text) ∧ base64Decode text = base64Decode (text.takeWhile isBase64) := by
  refine ⟨fun buf hbuf => ?_, fun text htext => ?_⟩
  · have hlength := length_encode buf
    rw [base64Encode_eq (by omega), base64Decode_eq (by omega)]
    exact ⟨decode_encode buf, hlength⟩
  · have hle := length_decodeFrom_le text []
    have hshort : (text.takeWhile isBase64).length ≤ text.length :=
      (List.takeWhile_sublist _).length_le
    rw [base64Decode_eq htext, base64Decode_eq (by omega)]
    have hdecoded : (decodeText text).length < 4294967296 := by
      unfold decodeText
      simp only [List.length_nil] at hle
      omega
    rw [base64Encode_eq hdecoded]
    refine ⟨⟨fun h => ?_, encode_decode⟩, decodeFrom_takeWhile text [] []⟩
    rw [← h]
    exact canonical_encode (decodeText text)

/-- Two bytes, and their text with a character behind it that is not read. -/
theorem encode_decode_iff_canonical_twoBytes :
    base64Decode (base64Encode [77, 97] 2) = [77, 97] ∧
      base64Decode "TWE=Z".toList = base64Decode "TWE".toList ∧ ¬ Canonical "TWE=Z".toList := by
  obtain ⟨hbuf, htext⟩ := encode_decode_iff_canonical
  obtain ⟨hiff, hread⟩ := htext "TWE=Z".toList (by decide)
  exact ⟨(hbuf [77, 97] (by decide)).1, hread, fun h => absurd (hiff.mpr h) (by decide)⟩

end RoundTrip

end OrderBookServer.Base64
