import OrderBookServer.HttpFraming

/-!
The loop of `handle_read` that copies what `read_buffer` returns into the array `buffer` and ends
it with a NUL. The copies and the NUL stay inside the array exactly where the bytes that are read
leave a cell for the NUL.
-/
namespace OrderBookServer.ReadBuffer

open HttpFraming

/-- A write outside of `buffer`; or the loop still waits for a result. -/
inductive Fault
  | outOfBuffer
  | blocked
deriving DecidableEq, Repr

/-- What `read_buffer` puts into `temp_buffer`. -/
structure Chunk where
  bytes : Text
  fits : bytes.length ≤ bufferSize

/-- A result of `read_buffer` is -1, here `none`, or a number of bytes, which may be 0. -/
abbrev Result := Option Chunk

/-- `buffer`, which has any contents at first, with `buffer_length`. -/
structure Buffer where
  cells : Text
  size : cells.length = bufferSize
  bufferLength : ℕ

namespace Buffer

def memcpy (b : Buffer) (bytes : Text) : Except Fault Buffer :=
  if h : b.bufferLength + bytes.length ≤ bufferSize then
    pure ⟨b.cells.take b.bufferLength ++ bytes ++ b.cells.drop (b.bufferLength + bytes.length),
      by simp only [List.length_append, List.length_take, List.length_drop, b.size]; omega,
      b.bufferLength + bytes.length⟩
  else throw .outOfBuffer

/-- `buffer[buffer_length] = '\0'`. -/
def terminate (b : Buffer) : Except Fault Buffer :=
  if b.bufferLength < bufferSize then
    pure ⟨b.cells.set b.bufferLength '\x00', (List.length_set ..).trans b.size, b.bufferLength⟩
  else throw .outOfBuffer

/-- The `while` loop. -/
def fill (b : Buffer) : List Result → Except Fault Buffer
  | [] => throw .blocked
  | none :: _ => pure b
  | some chunk :: rest =>
    if 0 < chunk.bytes.length then do
      let b ← b.memcpy chunk.bytes
      b.fill rest
    else pure b

/-- `handle_read` up to `std::string(buffer)`; `none` is a connection that is lost. -/
def readAll (b : Buffer) : List Result → Except Fault (Option Text)
  | [] => throw .blocked
  | none :: _ => pure none
  | some chunk :: rest => do
    let b ← { b with bufferLength := 0 }.memcpy chunk.bytes
    let b ← b.fill rest
    let b ← b.terminate
    return some (cString b.cells)

/-- The bytes up to `buffer_length`. -/
def Holds (b : Buffer) (text : Text) : Prop :=
  b.bufferLength = text.length ∧ b.cells.take b.bufferLength = text

end Buffer

/-- The bytes that the loop copies. -/
def copied : List Result → Text
  | some chunk :: rest => if 0 < chunk.bytes.length then chunk.bytes ++ copied rest else []
  | _ => []

/-- The bytes that a call copies. The first result may be 0 and the loop is entered nevertheless. -/
def received : List Result → Text
  | some chunk :: rest => chunk.bytes ++ copied rest
  | _ => []

/-- A result that ends the loop is among them. -/
def Ends (results : List Result) : Prop := ∃ r ∈ results, ∀ chunk ∈ r, chunk.bytes.length = 0

/-- The results are enough for a call. -/
def Finished : List Result → Prop
  | [] => False
  | none :: _ => True
  | some _ :: rest => Ends rest

/-- No write is outside of `buffer`. -/
def InBuffer (b : Buffer) (results : List Result) : Prop :=
  b.readAll results ≠ .error .outOfBuffer

section Copying

variable {b : Buffer} {text bytes : Text} {results : List Result}

theorem memcpy_of_le (h : b.Holds text) (hle : text.length + bytes.length ≤ bufferSize) :
    ∃ b', b.memcpy bytes = .ok b' ∧ b'.Holds (text ++ bytes) := by
  obtain ⟨hlength, htake⟩ := h
  rw [← hlength] at hle
  refine ⟨_, dif_pos hle, by simp [hlength], ?_⟩
  have hfront : (b.cells.take b.bufferLength).length = b.bufferLength := by
    rw [htake, hlength]
  rw [← htake]
  apply List.take_left'
  simp [hfront]

theorem memcpy_of_lt (h : b.Holds text) (hlt : bufferSize < text.length + bytes.length) :
    b.memcpy bytes = .error .outOfBuffer := by
  rw [← h.1] at hlt
  exact dif_neg (by omega)

theorem fill_of_le (h : b.Holds text) (hends : Ends results)
    (hle : text.length + (copied results).length ≤ bufferSize) :
    ∃ b', b.fill results = .ok b' ∧ b'.Holds (text ++ copied results) := by
  induction results generalizing b text with
  | nil =>
    obtain ⟨r, hr, -⟩ := hends
    cases hr
  | cons r rest ih =>
    cases r with
    | none => exact ⟨b, rfl, by simpa [copied] using h⟩
    | some chunk =>
      by_cases hpos : 0 < chunk.bytes.length
      · simp only [copied, if_pos hpos, List.length_append] at hle ⊢
        have hrest : Ends rest := by
          obtain ⟨r, hr, hzero⟩ := hends
          rcases List.mem_cons.mp hr with rfl | hr
          · have := hzero chunk rfl
            omega
          · exact ⟨r, hr, hzero⟩
        have hfits : text.length + chunk.bytes.length ≤ bufferSize := by omega
        obtain ⟨b₁, hcopy, hholds⟩ := memcpy_of_le h hfits
        obtain ⟨b₂, hfill, hholds₂⟩ := ih hholds hrest (by simp only [List.length_append]; omega)
        refine ⟨b₂, ?_, by rwa [List.append_assoc] at hholds₂⟩
        simp only [Buffer.fill, if_pos hpos, hcopy]
        exact hfill
      · exact ⟨b, if_neg hpos, by simpa [copied, hpos] using h⟩

theorem fill_of_lt (h : b.Holds text) (hfits : text.length ≤ bufferSize)
    (hlt : bufferSize < text.length + (copied results).length) :
    b.fill results = .error .outOfBuffer := by
  induction results generalizing b text with
  | nil =>
    simp only [copied, List.length_nil] at hlt
    omega
  | cons r rest ih =>
    cases r with
    | none =>
      simp only [copied, List.length_nil] at hlt
      omega
    | some chunk =>
      by_cases hpos : 0 < chunk.bytes.length
      · simp only [copied, if_pos hpos, List.length_append] at hlt
        simp only [Buffer.fill, if_pos hpos]
        by_cases hcopy : text.length + chunk.bytes.length ≤ bufferSize
        · obtain ⟨b₁, hrun, hholds⟩ := memcpy_of_le h hcopy
          rw [hrun]
          exact ih hholds (by simpa using hcopy) (by simp only [List.length_append]; omega)
        · rw [memcpy_of_lt h (by omega)]
          rfl
      · simp only [copied, if_neg hpos, List.length_nil] at hlt
        omega

theorem cString_append_nul (text rest : Text) :
    cString (text ++ '\x00' :: rest) = cString text := by
  induction text with
  | nil => rfl
  | cons c text ih =>
    unfold cString at ih ⊢
    rw [List.cons_append, List.takeWhile_cons, List.takeWhile_cons, ih]

theorem terminate_of_lt (h : b.Holds text) (hlt : text.length < bufferSize) :
    ∃ b', b.terminate = .ok b' ∧ cString b'.cells = cString text := by
  obtain ⟨hlength, htake⟩ := h
  rw [← hlength] at hlt
  refine ⟨_, if_pos hlt, ?_⟩
  have hcell : b.bufferLength < b.cells.length := by
    rw [b.size]
    exact hlt
  change cString (b.cells.set b.bufferLength '\x00') = cString text
  rw [List.set_eq_take_append_cons_drop, if_pos hcell, htake, cString_append_nul]

theorem terminate_of_le (h : b.Holds text) (hle : bufferSize ≤ text.length) :
    b.terminate = .error .outOfBuffer := by
  rw [← h.1] at hle
  exact if_neg (by omega)

end Copying

section Reading

variable {b : Buffer} {chunk : Chunk} {rest results : List Result}

theorem readAll_of_lt (b : Buffer) (hends : Ends rest)
    (hlt : (received (some chunk :: rest)).length < bufferSize) :
    b.readAll (some chunk :: rest) = .ok (some (cString (received (some chunk :: rest)))) := by
  have hstart : Buffer.Holds { b with bufferLength := 0 } [] := ⟨rfl, rfl⟩
  simp only [received, List.length_append] at hlt
  have hfits : ([] : Text).length + chunk.bytes.length ≤ bufferSize := by
    simpa using chunk.fits
  obtain ⟨b₁, hcopy, hholds⟩ := memcpy_of_le hstart hfits
  rw [List.nil_append] at hholds
  obtain ⟨b₂, hfill, hholds₂⟩ := fill_of_le hholds hends (by omega)
  obtain ⟨b₃, hend, hstring⟩ := terminate_of_lt hholds₂ (by simpa using hlt)
  simp only [Buffer.readAll, hcopy, received]
  change (b₁.fill rest >>= fun b => b.terminate >>= fun b => pure (some (cString b.cells))) = _
  rw [hfill]
  change (b₂.terminate >>= fun b => pure (some (cString b.cells))) = _
  rw [hend, ← hstring]
  rfl

theorem readAll_of_le (b : Buffer) (hends : Ends rest)
    (hle : bufferSize ≤ (received (some chunk :: rest)).length) :
    b.readAll (some chunk :: rest) = .error .outOfBuffer := by
  have hstart : Buffer.Holds { b with bufferLength := 0 } [] := ⟨rfl, rfl⟩
  simp only [received, List.length_append] at hle
  have hfits : ([] : Text).length + chunk.bytes.length ≤ bufferSize := by
    simpa using chunk.fits
  obtain ⟨b₁, hcopy, hholds⟩ := memcpy_of_le hstart hfits
  rw [List.nil_append] at hholds
  simp only [Buffer.readAll, hcopy]
  change (b₁.fill rest >>= fun b => b.terminate >>= fun b => pure (some (cString b.cells))) = _
  by_cases hover : bufferSize < chunk.bytes.length + (copied rest).length
  · rw [fill_of_lt hholds chunk.fits hover]
    rfl
  · obtain ⟨b₂, hfill, hholds₂⟩ := fill_of_le hholds hends (by omega)
    rw [hfill]
    change (b₂.terminate >>= fun b => pure (some (cString b.cells))) = _
    rw [terminate_of_le hholds₂ (by simpa using hle)]
    rfl

/-- The copies and the NUL stay inside of `buffer` exactly where less than its size is read. -/
theorem inBuffer_iff_received (b : Buffer) (h : Finished results) :
    InBuffer b results ↔ (received results).length < bufferSize := by
  unfold InBuffer
  cases results with
  | nil => cases h
  | cons r rest =>
    cases r with
    | none => simp [Buffer.readAll, received, bufferSize, pure, Except.pure]
    | some chunk =>
      by_cases hlt : (received (some chunk :: rest)).length < bufferSize
      · simp [readAll_of_lt b h hlt, hlt]
      · rw [readAll_of_le b h (by omega)]
        simpa using hlt

end Reading

section Boundary

def freshBuffer : Buffer := ⟨List.replicate bufferSize '?', List.length_replicate .., 0⟩

def lettersChunk (n : ℕ) (h : n ≤ bufferSize) : Chunk :=
  ⟨List.replicate n 'a', by rwa [List.length_replicate]⟩

/-- One read with letters, and then an error. -/
def oneRead (n : ℕ) (h : n ≤ bufferSize) : List Result := [some (lettersChunk n h), none]

variable {n : ℕ} {h : n ≤ bufferSize}

theorem ends_error : Ends [none] := ⟨none, by simp, by simp⟩

theorem finished_oneRead : Finished (oneRead n h) := ends_error

theorem length_received_oneRead : (received (oneRead n h)).length = n := by
  simp [oneRead, received, copied, lettersChunk]

/-- A byte less than the array has. -/
theorem inBuffer_iff_received_allButOne : InBuffer freshBuffer (oneRead 2047 (by decide)) := by
  rw [inBuffer_iff_received freshBuffer finished_oneRead, length_received_oneRead]
  decide

/-- As many bytes as the array has: the NUL is written behind it. -/
theorem not_inBuffer_full :
    Finished (oneRead 2048 (by decide)) ∧ ¬ InBuffer freshBuffer (oneRead 2048 (by decide)) := by
  refine ⟨finished_oneRead, fun hin => hin (readAll_of_le freshBuffer ends_error ?_)⟩
  exact Nat.le_of_eq length_received_oneRead.symm

end Boundary

end OrderBookServer.ReadBuffer
