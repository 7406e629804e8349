import Mathlib.Data.List.Forall2
import OrderBookServer.HttpTurns
import OrderBookServer.Runs
import OrderBookServer.SentRequest

/-!
One connection of `HttpClientSocket`: the bytes of a sequence of requests come in the chunks that
its calls of `handle_read` see. A request that cannot be told from a shorter one is kept and read
again with the next chunk; what follows a request in its chunk is not kept.
-/
namespace OrderBookServer.HttpFraming

open StdString HttpRequest SentRequest

/-- A text as a C string. -/
def cString (text : Text) : Text := text.takeWhile fun c => c ≠ '\x00'

def bufferSize : ℕ := 2048

def stream (requests : List SentRequest) : Text := requests.flatMap SentRequest.bytes

/-- `requests` are what the client sends, `arrived` counts the bytes that have been read;
`unanswered` are the tasks of `send_404_response` that have not run. -/
structure State (δ : Type) where
  requests : List SentRequest
  arrived : ℕ
  saveBuffer : Text
  executed : List (HttpRequest δ)
  unanswered : ℕ
  stopped : Bool

/-- `handle_read` takes a chunk of so many bytes, with a number of turns for its loops; a task
that answers with 404 runs. -/
inductive Action
  | read (size turns : ℕ)
  | answer

variable {δ : Type}

def init (requests : List SentRequest) : State δ := ⟨requests, 0, [], [], 0, false⟩

namespace State

variable (parse : Text → Except Failure (Json δ)) (s : State δ)

def chunk (size : ℕ) : Text := ((stream s.requests).drop s.arrived).take size

/-- `handle_read`, from where it has read the chunk. -/
def handleRead (turns : ℕ) (chunk : Text) : Except Failure (State δ) := do
  let buffer := cString chunk
  let message := s.saveBuffer ++ buffer
  match ← readMessage turns parse (cString message) with
  | none => return { s with unanswered := s.unanswered + 1 }
  | some (_, false) => return { s with saveBuffer := s.saveBuffer ++ buffer }
  | some (request, true) =>
    return { s with saveBuffer := [], executed := s.executed ++ [request] }

/-- Nobody handles an exception. -/
def step (s : State δ) : Action → Option (State δ)
  | .read size turns =>
    if s.stopped = false ∧ 0 < size ∧ size < bufferSize ∧
        s.arrived + size ≤ (stream s.requests).length then
      match s.handleRead parse turns (s.chunk size) with
      | .ok s' => some { s' with arrived := s.arrived + size }
      | .error .outOfFuel => none
      | .error _ => some { s with stopped := true }
    else none
  | .answer =>
    if s.stopped = false ∧ 0 < s.unanswered then
      some { s with saveBuffer := [], unanswered := s.unanswered - 1 }
    else none

end State

/-- A part of a request that is found to be too short: for a class with a body, its first end of
a line is not its last character, and its headers so far give a length that is neither 0 nor
that of the body so far. -/
structure Awaits (parse : Text → Except Failure (Json δ)) (text : Text) : Prop where
  size : text.length < 2147483648
  method : ∃ method, methodOf text = some method ∧ method.isPost
  start : headerStart text ≤ text.length
  length : ∃ value x, declaredLength text = some value ∧ strtol value = some x ∧
    -2147483648 ≤ x ∧ x ≤ 2147483647 ∧ x ≠ 0 ∧ x ≠ (bodyOf text).length
  form : FormReads (bodyOf text)
  json : ∃ json, parse (bodyOf text) = .ok json

/-- A chunk has no NUL and stays inside the request that its first byte belongs to. That request
is readable if it ends with the chunk, and found to be too short if not. -/
def State.ChunkInside (parse : Text → Except Failure (Json δ)) (s : State δ) (size : ℕ) : Prop :=
  ∀ front m rest saved, s.requests = front ++ m :: rest →
    s.arrived = (stream front).length + saved → saved < m.bytes.length →
    saved + size ≤ m.bytes.length ∧ '\x00' ∉ (m.bytes.drop saved).take size ∧
    if saved + size = m.bytes.length then m.Readable parse
    else Awaits parse (m.bytes.take (saved + size))

def State.Inside (parse : Text → Except Failure (Json δ)) (s : State δ) : Action → Prop
  | .read size _ => s.ChunkInside parse size
  | .answer => True

/-- The requests that have arrived whole are executed, in order and each once, and no other. -/
def Framed (requests : List SentRequest) (s : State δ) : Prop :=
  s.stopped = false ∧ ∃ front rest, requests = front ++ rest ∧
    (stream front).length ≤ s.arrived ∧
    (∀ m ∈ rest.head?, s.arrived < (stream front).length + m.bytes.length) ∧
    List.Forall₂ Executes s.executed front

section Reading

variable {parse : Text → Except Failure (Json δ)} {s s' : State δ} {text : Text}
  {requests : List SentRequest} {size turns : ℕ}

theorem cString_eq_self (h : '\x00' ∉ text) : cString text = text := by
  unfold cString
  rw [List.takeWhile_eq_self_iff]
  intro c hc
  have hne : c ≠ '\x00' := fun heq => h (heq ▸ hc)
  simpa using hne

/-- A part that is found to be too short is read without an exception. -/
theorem Awaits.returns (h : Awaits parse text) : ∃ request,
    Returns (fun turns => readMessage turns parse text) (some (request, false)) := by
  obtain ⟨method, hmethod, hpost⟩ := h.method
  have hfits : Fits method text := .of_length h.size
  obtain ⟨hblank, hfour⟩ := blank_of_methodOf hmethod
  obtain ⟨request, hread⟩ := deserialize_returns (fun _ => h.json) hfits hblank (by omega)
    h.start fun _ => h.form
  obtain ⟨hfrom, rfl⟩ := readFrom_of_returns hfits (by omega) hread
  obtain ⟨value, x, hvalue, hx, hlow, hhigh, hzero, hne⟩ := h.length
  have hbody : request.body = bodyOf text := by rw [hfrom.body, if_pos hpost]
  have hshort := hfits.body hpost
  have hother : sizeT x ≠ request.body.length := by
    rw [hbody]
    unfold sizeT
    omega
  have hvalid : request.isValidFormat = .ok false := by
    have hok : stoi value = .ok x := stoi_ok_iff.mpr ⟨hx, hlow, hhigh⟩
    unfold isValidFormat
    rw [if_pos hpost, contentLength_eq hfrom.headerParams]
    simp only [hvalue, hok, ok_bind, hzero, hother, decide_false, Bool.or_false]
    rfl
  exact ⟨request, readMessage_returns hfits.text hmethod hread hvalid⟩

theorem handleRead_refines (parse : Text → Except Failure (Json δ)) (s : State δ) (chunk : Text)
    {few many : ℕ} (h : few ≤ many) :
    Refines (s.handleRead parse few chunk) (s.handleRead parse many chunk) :=
  (readMessage_refines parse _ h).bind fun _ => Refines.refl _

/-- What is read is the text that was kept, followed by the chunk. -/
theorem handleRead_returns {message buffer : Text} {result : Option (HttpRequest δ × Bool)}
    (hbuffer : '\x00' ∉ buffer) (hsaved : '\x00' ∉ s.saveBuffer)
    (hmessage : s.saveBuffer ++ buffer = message)
    (h : Returns (fun turns => readMessage turns parse message) result) :
    Returns (fun turns => s.handleRead parse turns buffer) (match result with
      | none => { s with unanswered := s.unanswered + 1 }
      | some (_, false) => { s with saveBuffer := message }
      | some (request, true) =>
        { s with saveBuffer := [], executed := s.executed ++ [request] }) := by
  have hclean : '\x00' ∉ message := by
    rw [← hmessage, List.mem_append]
    exact fun hmem => hmem.elim hsaved hbuffer
  unfold State.handleRead
  simp only [cString_eq_self hbuffer, hmessage, cString_eq_self hclean]
  apply h.bind
  match result with
  | none => exact Returns.pure _
  | some (_, false) => exact Returns.pure _
  | some (request, true) => exact Returns.pure _

end Reading

section Position

variable {requests front rest : List SentRequest} {m : SentRequest} {s : State δ}
  {saved size : ℕ}

theorem stream_cons (m : SentRequest) (rest : List SentRequest) :
    stream (m :: rest) = m.bytes ++ stream rest := rfl

theorem stream_split (front rest : List SentRequest) (m : SentRequest) :
    stream (front ++ m :: rest) = stream front ++ (m.bytes ++ stream rest) := by
  simp [stream]

theorem bytes_pos (m : SentRequest) : 0 < m.bytes.length := by
  rw [bytes_eq]
  simp only [List.length_append, List.length_cons]
  omega

/-- A chunk that stays inside a request is a part of its bytes. -/
theorem chunk_eq (hsplit : s.requests = front ++ m :: rest)
    (harrived : s.arrived = (stream front).length + saved)
    (hinside : saved + size ≤ m.bytes.length) :
    s.chunk size = (m.bytes.drop saved).take size := by
  unfold State.chunk
  rw [hsplit, harrived, stream_split, ← List.drop_drop, List.drop_left,
    List.drop_append_of_le_length (by omega), List.take_append_of_le_length]
  rw [List.length_drop]
  omega

end Position

section Invariant

/-- The requests that have arrived whole are executed, and the part that has arrived of the next
one is kept. -/
structure Inv (requests : List SentRequest) (s : State δ) : Prop where
  same : s.requests = requests
  running : s.stopped = false
  answered : s.unanswered = 0
  split : ∃ front rest, requests = front ++ rest ∧ (stream front).length ≤ s.arrived ∧
    (∀ m ∈ rest.head?, s.arrived < (stream front).length + m.bytes.length) ∧
    s.saveBuffer = (stream rest).take (s.arrived - (stream front).length) ∧
    '\x00' ∉ s.saveBuffer ∧ List.Forall₂ Executes s.executed front

variable {parse : Text → Except Failure (Json δ)} {requests : List SentRequest}
  {s s' : State δ} {size : ℕ}

theorem inv_init (requests : List SentRequest) : Inv requests (init requests : State δ) where
  same := rfl
  running := rfl
  answered := rfl
  split := by
    refine ⟨[], requests, rfl, Nat.le_refl 0, fun m _ => ?_, rfl, List.not_mem_nil, .nil⟩
    exact Nat.lt_of_lt_of_le (bytes_pos m) (Nat.le_add_left _ _)

theorem Inv.framed (h : Inv requests s) : Framed requests s := by
  obtain ⟨front, rest, hsplit, hle, hnext, _, _, hexecuted⟩ := h.split
  exact ⟨h.running, front, rest, hsplit, hle, hnext, hexecuted⟩

/-- While bytes are to come, the next one belongs to a request of which the first ones are kept. -/
theorem Inv.pending (h : Inv requests s) (hmore : s.arrived < (stream s.requests).length) :
    ∃ front m rest saved, s.requests = front ++ m :: rest ∧
      s.arrived = (stream front).length + saved ∧ saved < m.bytes.length ∧
      s.saveBuffer = m.bytes.take saved ∧ '\x00' ∉ s.saveBuffer ∧
      List.Forall₂ Executes s.executed front := by
  obtain ⟨front, rest, hsplit, hle, hnext, hkept, hclean, hexecuted⟩ := h.split
  cases rest with
  | nil =>
    rw [h.same, hsplit, List.append_nil] at hmore
    omega
  | cons m rest =>
    have hinside := hnext m rfl
    refine ⟨front, m, rest, s.arrived - (stream front).length, h.same.trans hsplit, by omega,
      by omega, ?_, hclean, hexecuted⟩
    rw [hkept, stream_cons, List.take_append_of_le_length (by omega)]

/-- What a read that meets the condition comes to. -/
theorem read_returns (h : Inv requests s) (hin : s.ChunkInside parse size) (hpos : 0 < size)
    (hmore : s.arrived + size ≤ (stream s.requests).length) : ∃ s₁,
    Returns (fun turns => s.handleRead parse turns (s.chunk size)) s₁ ∧
      Inv requests { s₁ with arrived := s.arrived + size } := by
  obtain ⟨front, m, rest, saved, hsplit, harrived, hlt, hkept, hclean, hexecuted⟩ :=
    h.pending (by omega)
  obtain ⟨hinside, hbuffer, hpart⟩ := hin front m rest saved hsplit harrived hlt
  have hmessage : s.saveBuffer ++ (m.bytes.drop saved).take size =
      m.bytes.take (saved + size) := by
    rw [hkept, List.take_add]
  rw [chunk_eq hsplit harrived hinside]
  rw [h.same] at hsplit
  by_cases hwhole : saved + size = m.bytes.length
  · rw [if_pos hwhole] at hpart
    rw [hwhole, List.take_length] at hmessage
    obtain ⟨request, hexecutes, hread⟩ := readMessage_whole hpart
    refine ⟨_, handleRead_returns hbuffer hclean hmessage hread,
      ⟨h.same, h.running, h.answered, ?_⟩⟩
    have hlength : (stream (front ++ [m])).length = (stream front).length + m.bytes.length := by
      simp [stream]
    refine ⟨front ++ [m], rest, by simp [hsplit], ?_, fun m' _ => ?_, ?_, List.not_mem_nil, ?_⟩
    · simp only [harrived, hlength]
      omega
    · have hpos := bytes_pos m'
      simp only [harrived, hlength]
      omega
    · have hzero : s.arrived + size - (stream (front ++ [m])).length = 0 := by
        rw [harrived, hlength]
        omega
      rw [hzero, List.take_zero]
    · exact List.rel_append hexecuted (.cons hexecutes .nil)
  · rw [if_neg hwhole] at hpart
    obtain ⟨request, hread⟩ := hpart.returns
    refine ⟨_, handleRead_returns hbuffer hclean hmessage hread,
      ⟨h.same, h.running, h.answered, ?_⟩⟩
    refine ⟨front, m :: rest, hsplit, ?_, fun m' hm' => ?_, ?_, ?_, hexecuted⟩
    · simp only [harrived]
      omega
    · obtain rfl := Option.some.inj hm'
      simp only [harrived]
      omega
    · have hcount : s.arrived + size - (stream front).length = saved + size := by omega
      rw [hcount, stream_cons, List.take_append_of_le_length hinside]
    · simp only [← hmessage, List.mem_append]
      exact fun hmem => hmem.elim hclean hbuffer

theorem step_inv {a : Action} (h : Inv requests s) (hin : s.Inside parse a)
    (hs : s.step parse a = some s') : Inv requests s' := by
  cases a with
  | read size turns =>
    simp only [State.step] at hs
    split at hs
    · rename_i hready
      obtain ⟨s₁, hreturns, hinv⟩ := read_returns h hin hready.2.1 hready.2.2.2
      rcases hreturns.eq_of_refines (fun _ _ => handleRead_refines parse s _) turns with hfuel | hok
      · rw [hfuel] at hs
        cases hs
      · rw [hok] at hs
        obtain rfl := Option.some.inj hs
        exact hinv
    · cases hs
  | answer =>
    have hanswered := h.answered
    simp [State.step, hanswered] at hs

/-- Where each chunk meets the condition, what is executed are the requests that have arrived
whole, and a further chunk that meets it is taken. -/
theorem framed_of_inside
    (h : Runs.Reaches (State.step parse) (State.Inside parse) (init requests) s) :
    Framed requests s ∧ ∀ size, 0 < size → size < bufferSize →
      s.arrived + size ≤ (stream requests).length → s.ChunkInside parse size →
      ∃ turns s', s.step parse (.read size turns) = some s' := by
  have hinv : Inv requests s :=
    h.invariant (fun _ _ _ hs hin hstep => step_inv hs hin hstep) (inv_init requests)
  refine ⟨hinv.framed, fun size hpos hshort hmore hin => ?_⟩
  rw [← hinv.same] at hmore
  obtain ⟨s₁, hreturns, _⟩ := read_returns hinv hin hpos hmore
  obtain ⟨turns, hok⟩ := hreturns.exists_ok
  have hready : s.stopped = false ∧ 0 < size ∧ size < bufferSize ∧
      s.arrived + size ≤ (stream s.requests).length := ⟨hinv.running, hpos, hshort, hmore⟩
  exact ⟨turns, { s₁ with arrived := s.arrived + size },
    by simp only [State.step, if_pos hready, hok]⟩

end Invariant

section Examples

def parseNothing : Text → Except Failure (Json Empty) := fun _ => .ok .null

def hostField : Field where
  name := ['H', 'o', 's', 't']
  before := [' ']
  value := ['a']
  after := []
  name_ne := by decide
  name_clean := by simp
  value_clean := by simp
  value_trimmed := by simp [isBlank]
  blanks := by simp [isBlank]

/-- A request with a header line and no body. -/
def hostRequest : SentRequest where
  method := ['G', 'E', 'T']
  path := ['/']
  query := none
  version := ['H', 'T', 'T', 'P', '/', '1', '.', '1']
  fields := [hostField]
  body := []
  method_clean := by simp
  path_clean := by simp
  query_clean _ h := nomatch h
  version_clean := by simp
  lengths f hf hlength := by
    obtain rfl := List.mem_singleton.mp hf
    exact absurd hlength (by unfold Field.isContentLength; decide)
  bodied := by rw [if_neg (by decide)]

def lengthField : Field where
  name := ['C', 'o', 'n', 't', 'e', 'n', 't', '-', 'L', 'e', 'n', 'g', 't', 'h']
  before := [' ']
  value := ['4']
  after := []
  name_ne := by decide
  name_clean := by simp
  value_clean := by simp
  value_trimmed := by simp [isBlank]
  blanks := by simp [isBlank]

/-- A request with a body of four bytes. -/
def postRequest : SentRequest where
  method := ['P', 'O', 'S', 'T']
  path := ['/', 'a']
  query := none
  version := ['H', 'T', 'T', 'P', '/', '1', '.', '1']
  fields := [lengthField]
  body := ['a', '=', 'b', 'c']
  method_clean := by simp
  path_clean := by simp
  query_clean _ h := nomatch h
  version_clean := by simp
  lengths f hf _ := by
    obtain rfl := List.mem_singleton.mp hf
    exact ⟨by decide, by simp [lengthField], by decide⟩
  bodied := by
    rw [if_pos (by decide)]
    exact ⟨_, List.mem_singleton_self _, by unfold Field.isContentLength; decide⟩

theorem readable_postRequest : postRequest.Readable parseNothing where
  size := by decide
  blanks f hf := by
    obtain rfl := List.mem_singleton.mp hf
    exact ⟨rfl, rfl⟩
  values f hf := by
    obtain rfl := List.mem_singleton.mp hf
    rfl
  names := by decide
  method :=
    ⟨.post, rfl, fun _ => ⟨fun i hi => (nomatch (show none = some i from hi)), .null, rfl⟩⟩

/-- The request without its last two bytes. -/
theorem awaits_postRequest : Awaits parseNothing (postRequest.bytes.take 41) where
  size := by decide
  method := ⟨.post, by decide, rfl⟩
  start := by decide
  length := by
    have hsection : headerSection (postRequest.bytes.take 41) = lengthField.line := by decide
    have hline : Occurrences.indexOf crlf lengthField.line = none := by decide
    have hheader : headerOf lengthField.line = some lengthField.entry := headerOf_line rfl rfl rfl
    have hheaders : headersOf (postRequest.bytes.take 41) = [lengthField.entry] := by
      unfold headersOf
      rw [hsection, Occurrences.splitOn_of_none hline, List.filterMap_cons_some hheader]
      rfl
    refine ⟨['4'], 4, ?_, by decide, by decide, by decide, by decide, by decide⟩
    unfold declaredLength
    rw [hheaders]
    decide
  form i hi := nomatch (show none = some i from hi)
  json := ⟨.null, rfl⟩

theorem framed_of_inside_twice : ∃ s : State Empty,
    Runs.Reaches (State.step parseNothing) (State.Inside parseNothing) (init [postRequest]) s ∧
    s.executed.length = 1 ∧ Framed [postRequest] s := by
  have hpending : ∀ front m rest, [postRequest] = front ++ m :: rest →
      front = [] ∧ m = postRequest := by
    intro front m rest hsplit
    cases front with
    | nil => exact ⟨rfl, (List.cons.inj hsplit).1.symm⟩
    | cons m' front => simp at hsplit
  have hfirst : (init [postRequest] : State Empty).Inside parseNothing (.read 41 60) := by
    intro front m rest saved hsplit harrived _
    obtain ⟨rfl, rfl⟩ := hpending front m rest hsplit
    obtain rfl : saved = 0 := by simpa [stream, init] using harrived.symm
    rw [if_neg (by decide)]
    exact ⟨by decide, by decide, awaits_postRequest⟩
  have h := Runs.Reaches.step (.start : Runs.Reaches (State.step parseNothing)
    (State.Inside parseNothing) (init [postRequest]) _) hfirst rfl
  have h := h.step (m := .read 2 60) (by
    intro front m rest saved hsplit harrived _
    obtain ⟨rfl, rfl⟩ := hpending front m rest hsplit
    change 41 = 0 + saved at harrived
    obtain rfl : saved = 41 := by omega
    rw [if_pos (by decide)]
    exact ⟨by decide, by decide, readable_postRequest⟩) rfl
  exact ⟨_, h, rfl, (framed_of_inside h).1⟩

/-- A request that is cut behind its first line: it is executed without its header, and the
header is answered as a request of its own. -/
theorem not_framed_cut : ∃ s : State Empty,
    Runs.Reaches (State.step parseNothing) (fun _ _ => True) (init [hostRequest]) s ∧
      s.arrived = (stream [hostRequest]).length ∧ s.unanswered = 0 ∧
      ¬ List.Forall₂ Executes s.executed [hostRequest] := by
  have hrun := Runs.Reaches.follow [.read 16 20, .read 11 20, .answer]
    (.start : Runs.Reaches (State.step parseNothing) (fun _ _ => True) (init [hostRequest]) _) rfl
  refine ⟨_, hrun, rfl, rfl, fun hexecuted => ?_⟩
  cases hexecuted with
  | cons hfirst _ => exact absurd hfirst.headerParams (List.cons_ne_nil _ _).symm

end Examples

end OrderBookServer.HttpFraming
