import Mathlib.Data.List.GetD
import Mathlib.Data.List.Infix
import Mathlib.Data.List.Nodup
import OrderBookServer.Runs

/-!
The responses of one open connection. The handlers of its requests complete in any order, and each
writes its response as it completes, with one call of `TlsWrapper::write` whose result nobody
reads (src/core/system_io/https_server_io, src/core/network/tls_wrapper).
-/
namespace OrderBookServer.ResponseStream

/-- The bytes of a connection, each with the request that it responds to. -/
def tag (i : ℕ) (response : List UInt8) : List (ℕ × UInt8) := response.map (i, ·)

/-- The full responses in the order of the requests. -/
def fullResponses (responses : List (List UInt8)) : List (ℕ × UInt8) :=
  responses.zipIdx.flatMap fun (response, i) => tag i response

/-- How many bytes there are of a response. -/
def countOf (i : ℕ) (bytes : List (ℕ × UInt8)) : ℕ := bytes.countP fun byte => byte.1 == i

/-- `responses` are those that the requests dispatched so far get in the end, `suspended` the
requests that have not completed. -/
structure State where
  responses : List (List UInt8)
  suspended : List ℕ
  placed : List (ℕ × UInt8)

/-- A request is dispatched, with the response that its handler will compute; a handler completes,
and the transport accepts so many bytes of the response. -/
inductive Action
  | dispatch (response : List UInt8)
  | complete (i accepted : ℕ)

def init : State := ⟨[], [], []⟩

/-- What `write` is asked to write of a response: the size becomes an `uint32_t` and then an
`int`, and `SSL_write` writes nothing where that is negative. -/
def writeSize (size : ℕ) : ℕ := (UInt32.ofNat size).toInt32.toInt.toNat

namespace State

variable (s : State)

def response (i : ℕ) : List UInt8 := s.responses.getD i []

def written (i : ℕ) : ℕ := countOf i s.placed

def step : Action → Option State
  | .dispatch response => some { s with
      responses := s.responses ++ [response]
      suspended := s.suspended ++ [s.responses.length] }
  | .complete i accepted =>
    if i ∈ s.suspended ∧ accepted ≤ writeSize (s.response i).length then some { s with
      suspended := s.suspended.erase i
      placed := s.placed ++ tag i ((s.response i).take accepted) }
    else none

/-- The responses to all earlier requests are written to their last byte. -/
def InTurn : Action → Prop
  | .dispatch _ => True
  | .complete i accepted => 0 < accepted → ∀ j < i, s.written j = (s.response j).length

/-- What a connection comes to. -/
def run (actions : List Action) : Option State := actions.foldlM step s

end State

/-- The responses to the requests that are dispatched. -/
def dispatched : List Action → List (List UInt8)
  | [] => []
  | .dispatch response :: actions => response :: dispatched actions
  | .complete _ _ :: actions => dispatched actions

/-- The results of the writes for a request. -/
def results (j : ℕ) : List Action → List ℕ
  | [] => []
  | .dispatch _ :: actions => results j actions
  | .complete i accepted :: actions =>
    if i = j then accepted :: results j actions else results j actions

/-- The schedule: where the transport accepts bytes for a request, the handlers of the earlier
ones have completed, but those whose response is empty. -/
def Scheduled (before : List Action) : Action → Prop
  | .dispatch _ => True
  | .complete i accepted => 0 < accepted → ∀ j < i,
      (dispatched before).getD j [] = [] ∨ results j before ≠ []

/-- The transport: where it accepts bytes for a request, it has accepted those of the earlier ones
whole. -/
def TakenWhole (before : List Action) : Action → Prop
  | .dispatch _ => True
  | .complete i accepted => 0 < accepted → ∀ j < i, ∀ size ∈ results j before,
      size = ((dispatched before).getD j []).length

instance (before : List Action) (a : Action) : Decidable (Scheduled before a) :=
  match a with
  | .dispatch _ => instDecidableTrue
  | .complete i accepted => inferInstanceAs (Decidable (0 < accepted → ∀ j < i,
      (dispatched before).getD j [] = [] ∨ results j before ≠ []))

instance (before : List Action) (a : Action) : Decidable (TakenWhole before a) :=
  match a with
  | .dispatch _ => instDecidableTrue
  | .complete i accepted => inferInstanceAs (Decidable (0 < accepted → ∀ j < i,
      ∀ size ∈ results j before, size = ((dispatched before).getD j []).length))

/-- Schedule and transport of what comes after `before`. -/
def Orderly (before : List Action) : List Action → Prop
  | [] => True
  | a :: actions => (Scheduled before a ∧ TakenWhole before a) ∧ Orderly (before ++ [a]) actions

/-- What is placed on the connection is a prefix of the full responses, in the order of the
requests. -/
def InOrder (s : State) : Prop := s.placed <+: fullResponses s.responses

section Bytes

variable {i j : ℕ} {responses : List (List UInt8)} {response : List UInt8}

@[simp] theorem countOf_append (bytes bytes' : List (ℕ × UInt8)) :
    countOf i (bytes ++ bytes') = countOf i bytes + countOf i bytes' :=
  List.countP_append

theorem countOf_tag (i : ℕ) (response : List UInt8) :
    countOf i (tag i response) = response.length := by
  unfold countOf tag
  rw [List.countP_map]
  exact List.countP_eq_length.mpr fun _ _ => beq_self_eq_true i

theorem countOf_tag_of_ne (h : j ≠ i) : countOf i (tag j response) = 0 := by
  unfold countOf tag
  rw [List.countP_map, List.countP_eq_zero]
  exact fun _ _ => by simpa using h

theorem fullResponses_append (responses rest : List (List UInt8)) : ∃ bytes,
    fullResponses (responses ++ rest) = fullResponses responses ++ bytes := by
  unfold fullResponses
  rw [List.zipIdx_append, List.flatMap_append]
  exact ⟨_, rfl⟩

theorem fullResponses_concat (responses : List (List UInt8)) (response : List UInt8) :
    fullResponses (responses ++ [response]) =
      fullResponses responses ++ tag responses.length response := by
  unfold fullResponses
  rw [List.zipIdx_append, List.flatMap_append]
  simp

/-- The responses before one, that response, and those after it. -/
theorem fullResponses_split (hi : i < responses.length) : ∃ bytes, fullResponses responses =
    fullResponses (responses.take i) ++ (tag i (responses.getD i []) ++ bytes) := by
  have hsplit :
      responses.take i ++ [responses.getD i []] ++ responses.drop (i + 1) = responses := by
    rw [List.getD_eq_getElem _ _ hi, List.append_assoc, List.singleton_append,
      List.getElem_cons_drop, List.take_append_drop]
  obtain ⟨bytes, hbytes⟩ :=
    fullResponses_append (responses.take i ++ [responses.getD i []]) (responses.drop (i + 1))
  rw [hsplit, fullResponses_concat, List.length_take_of_le hi.le, List.append_assoc] at hbytes
  exact ⟨bytes, hbytes⟩

theorem getD_take (hj : j < i) : (responses.take i).getD j [] = responses.getD j [] := by
  rw [List.getD_eq_getElem?_getD, List.getD_eq_getElem?_getD, List.getElem?_take_of_lt hj]

theorem lt_length_of_mem (responses : List (List UInt8)) :
    ∀ byte ∈ fullResponses responses, byte.1 < responses.length := by
  induction responses using List.reverseRecOn with
  | nil => exact fun byte hbyte => by cases hbyte
  | append_singleton responses response ih =>
    intro byte hbyte
    rw [fullResponses_concat] at hbyte
    rw [List.length_append, List.length_singleton]
    rcases List.mem_append.mp hbyte with hold | hnew
    · exact Nat.lt_succ_of_lt (ih byte hold)
    · obtain ⟨_, _, rfl⟩ := List.mem_map.mp hnew
      exact Nat.lt_succ_self _

theorem countOf_fullResponses (responses : List (List UInt8)) (j : ℕ) :
    countOf j (fullResponses responses) = (responses.getD j []).length := by
  induction responses using List.reverseRecOn with
  | nil => rfl
  | append_singleton responses response ih =>
    rw [fullResponses_concat, countOf_append, ih]
    rcases Nat.lt_trichotomy j responses.length with hlt | rfl | hgt
    · rw [countOf_tag_of_ne hlt.ne', List.getD_append _ _ _ _ hlt, Nat.add_zero]
    · rw [countOf_tag, List.getD_eq_default _ _ (Nat.le_refl _),
        List.getD_append_right _ _ _ _ (Nat.le_refl _), Nat.sub_self]
      exact Nat.zero_add _
    · rw [countOf_tag_of_ne hgt.ne, List.getD_eq_default _ _ hgt.le,
        List.getD_eq_default _ _ (by rw [List.length_append, List.length_singleton]; exact hgt)]
      rfl

theorem countOf_eq_zero {bytes : List (ℕ × UInt8)} :
    countOf i bytes = 0 ↔ ∀ byte ∈ bytes, byte.1 ≠ i := by
  unfold countOf
  rw [List.countP_eq_zero]
  exact ⟨fun h byte hbyte heq => h byte hbyte (beq_iff_eq.mpr heq),
    fun h byte hbyte heq => h byte hbyte (beq_iff_eq.mp heq)⟩

theorem countOf_le_of_prefix {bytes bytes' : List (ℕ × UInt8)} (h : bytes <+: bytes') :
    countOf i bytes ≤ countOf i bytes' :=
  h.sublist.countP_le

/-- A prefix has no byte of a response that it does not have the earlier ones of in full, and
ends where that response starts if it has none of it. -/
theorem prefix_eq_take {placed : List (ℕ × UInt8)} (h : placed <+: fullResponses responses)
    (hi : i < responses.length) (hpos : responses.getD i [] ≠ [])
    (hzero : countOf i placed = 0)
    (hearlier : ∀ j < i, countOf j placed = (responses.getD j []).length) :
    placed = fullResponses (responses.take i) := by
  obtain ⟨bytes, hsplit⟩ := fullResponses_split hi
  rw [hsplit] at h
  have hlength : (responses.take i).length = i := List.length_take_of_le hi.le
  rcases List.prefix_or_prefix_of_prefix h (List.prefix_append _ _) with hshort | hlong
  · obtain ⟨more, hmore⟩ := hshort
    -- Nothing is left of the earlier responses.
    have hnone : ∀ byte ∈ more, False := by
      intro byte hbyte
      have hmem : byte ∈ fullResponses (responses.take i) := by
        rw [← hmore]
        exact List.mem_append_right _ hbyte
      have hlt := lt_length_of_mem _ byte hmem
      rw [hlength] at hlt
      have hcount := countOf_fullResponses (responses.take i) byte.1
      rw [← hmore, countOf_append, hearlier _ hlt, getD_take hlt] at hcount
      exact countOf_eq_zero.mp (Nat.add_left_cancel hcount) byte hbyte rfl
    rw [← hmore, List.eq_nil_iff_forall_not_mem.mpr hnone, List.append_nil]
  · obtain ⟨more, rfl⟩ := hlong
    rw [List.prefix_append_right_inj] at h
    cases more with
    | nil => exact List.append_nil _
    | cons byte more =>
      cases hresponse : responses.getD i [] with
      | nil => exact absurd hresponse hpos
      | cons head response =>
        rw [hresponse] at h
        cases (List.cons_prefix_cons.mp h).1
        rw [countOf_append, Nat.add_eq_zero_iff] at hzero
        exact absurd rfl (countOf_eq_zero.mp hzero.2 _ (List.mem_cons_self ..))

end Bytes

section Runs

variable {i accepted : ℕ} {s s' : State} {a : Action}

/-- Nothing of a response is placed before its handler completes. -/
structure Inv (s : State) : Prop where
  inOrder : InOrder s
  fresh : ∀ i ∈ s.suspended, s.written i = 0
  dispatched : ∀ i ∈ s.suspended, i < s.responses.length
  once : s.suspended.Nodup

theorem inv_init : Inv init where
  inOrder := List.prefix_rfl
  fresh i hi := by cases hi
  dispatched i hi := by cases hi
  once := List.nodup_nil

theorem Inv.dispatch (h : Inv s) (response : List UInt8) :
    Inv { s with
      responses := s.responses ++ [response]
      suspended := s.suspended ++ [s.responses.length] } where
  inOrder := by
    obtain ⟨bytes, hbytes⟩ := fullResponses_append s.responses [response]
    show s.placed <+: fullResponses (s.responses ++ [response])
    rw [hbytes]
    exact h.inOrder.trans (List.prefix_append _ _)
  fresh i hi := by
    rcases List.mem_append.mp hi with hold | hnew
    · exact h.fresh i hold
    · refine countOf_eq_zero.mpr fun byte hbyte heq => ?_
      have hlt := lt_length_of_mem _ byte (h.inOrder.subset hbyte)
      rw [heq, List.mem_singleton.mp hnew] at hlt
      exact Nat.lt_irrefl _ hlt
  dispatched i hi := by
    show i < (s.responses ++ [response]).length
    rw [List.length_append, List.length_singleton]
    rcases List.mem_append.mp hi with hold | hnew
    · exact Nat.lt_succ_of_lt (h.dispatched i hold)
    · rw [List.mem_singleton.mp hnew]
      exact Nat.lt_succ_self _
  once := List.nodup_append.mpr ⟨h.once, List.nodup_singleton _, fun i hi j hj heq =>
    Nat.lt_irrefl _ (List.mem_singleton.mp hj ▸ heq ▸ h.dispatched i hi)⟩

/-- The bytes of a response come after those of the earlier ones. -/
theorem Inv.inOrder_complete (h : Inv s) (hi : i ∈ s.suspended)
    (haccepted : accepted ≤ (s.response i).length) :
    InOrder { s with
      suspended := s.suspended.erase i
      placed := s.placed ++ tag i ((s.response i).take accepted) } ↔
    s.InTurn (.complete i accepted) := by
  have hlt := h.dispatched i hi
  obtain ⟨bytes, hsplit⟩ := fullResponses_split hlt
  have hlength : (s.responses.take i).length = i := List.length_take_of_le hlt.le
  constructor
  · intro hnext hpos j hj
    change s.placed ++ tag i ((s.response i).take accepted) <+: fullResponses s.responses at hnext
    -- One byte of the response has all bytes of the earlier ones before it.
    have hbefore : fullResponses (s.responses.take i) <+:
        s.placed ++ tag i ((s.response i).take accepted) := by
      rw [hsplit] at hnext
      rcases List.prefix_or_prefix_of_prefix hnext (List.prefix_append _ _) with hshort | hlong
      · have hmem : ∀ byte ∈ tag i ((s.response i).take accepted), byte.1 < i := by
          intro byte hbyte
          have hold := lt_length_of_mem _ byte (hshort.subset (List.mem_append_right _ hbyte))
          rwa [hlength] at hold
        have hcount : countOf i (tag i ((s.response i).take accepted)) = 0 :=
          countOf_eq_zero.mpr fun byte hbyte => (hmem byte hbyte).ne
        rw [countOf_tag, List.length_take_of_le haccepted] at hcount
        exact absurd hcount hpos.ne'
      · exact hlong
    have hge := countOf_le_of_prefix (i := j) hbefore
    rw [countOf_fullResponses, getD_take hj, countOf_append, countOf_tag_of_ne hj.ne',
      Nat.add_zero] at hge
    have hle := countOf_le_of_prefix (i := j) h.inOrder
    rw [countOf_fullResponses] at hle
    exact Nat.le_antisymm hle hge
  · intro hturn
    show s.placed ++ tag i ((s.response i).take accepted) <+: fullResponses s.responses
    rcases Nat.eq_zero_or_pos accepted with rfl | hpos
    · rw [List.take_zero]
      show s.placed ++ [] <+: _
      rw [List.append_nil]
      exact h.inOrder
    · have hresponse : s.responses.getD i [] ≠ [] := fun hnil => by
        have hzero : (s.response i).length = 0 := congrArg List.length hnil
        omega
      rw [prefix_eq_take h.inOrder hlt hresponse (h.fresh i hi) (hturn hpos), hsplit,
        List.prefix_append_right_inj]
      exact ((List.take_prefix _ _).map _).trans (List.prefix_append _ _)

theorem writeSize_le (size : ℕ) : writeSize size ≤ size := by
  have hint : (UInt32.ofNat size).toInt32.toInt = (size : ℤ).bmod 4294967296 :=
    Int32.toInt_ofNat'
  unfold writeSize
  rw [hint, Int.bmod_def]
  split <;> omega

/-- What a step can do. -/
theorem step_cases (hs : s.step a = some s') :
    (∃ response, a = .dispatch response ∧ s' = { s with
      responses := s.responses ++ [response]
      suspended := s.suspended ++ [s.responses.length] }) ∨
    ∃ i accepted, a = .complete i accepted ∧ i ∈ s.suspended ∧
      accepted ≤ (s.response i).length ∧ s' = { s with
        suspended := s.suspended.erase i
        placed := s.placed ++ tag i ((s.response i).take accepted) } := by
  unfold State.step at hs
  cases a with
  | dispatch response =>
    cases hs
    exact Or.inl ⟨response, rfl, rfl⟩
  | complete i accepted =>
    by_cases hcan : i ∈ s.suspended ∧ accepted ≤ writeSize (s.response i).length
    · simp only [if_pos hcan] at hs
      cases hs
      exact Or.inr ⟨i, accepted, rfl, hcan.1, hcan.2.trans (writeSize_le _), rfl⟩
    · simp [if_neg hcan] at hs

theorem Inv.step (h : Inv s) (hturn : s.InTurn a) (hs : s.step a = some s') : Inv s' := by
  obtain ⟨response, rfl, rfl⟩ | ⟨i, accepted, rfl, hi, haccepted, rfl⟩ := step_cases hs
  · exact h.dispatch response
  · refine ⟨(h.inOrder_complete hi haccepted).mpr hturn, fun j hj => ?_, fun j hj => ?_,
      h.once.erase i⟩
    · obtain ⟨hne, hold⟩ := h.once.mem_erase_iff.mp hj
      show countOf j (s.placed ++ tag i _) = 0
      rw [countOf_append, countOf_tag_of_ne hne.symm]
      exact h.fresh j hold
    · exact h.dispatched j (List.mem_of_mem_erase hj)

/-- What a state has of the actions so far. -/
structure Recorded (before : List Action) (s : State) : Prop where
  responses : s.responses = dispatched before
  written : ∀ j, s.written j = (results j before).headD 0
  pending : ∀ j, j ∈ s.suspended ∨ s.responses.length ≤ j → results j before = []
  single : ∀ j, (results j before).length ≤ 1

theorem recorded_init : Recorded [] init where
  responses := rfl
  written _ := rfl
  pending _ _ := rfl
  single _ := Nat.zero_le _

section Recording

variable {before : List Action} {response : List UInt8}

theorem dispatched_append (before actions : List Action) :
    dispatched (before ++ actions) = dispatched before ++ dispatched actions := by
  induction before with
  | nil => rfl
  | cons a before ih =>
    cases a with
    | dispatch response => exact congrArg (response :: ·) ih
    | complete i accepted => exact ih

theorem results_append (j : ℕ) (before actions : List Action) :
    results j (before ++ actions) = results j before ++ results j actions := by
  induction before with
  | nil => rfl
  | cons a before ih =>
    cases a with
    | dispatch response => exact ih
    | complete i accepted =>
      rw [List.cons_append, results, results]
      split
      · rw [ih, List.cons_append]
      · exact ih

theorem results_dispatch (j : ℕ) :
    results j (before ++ [.dispatch response]) = results j before := by
  rw [results_append]
  exact List.append_nil _

theorem results_complete : results i (before ++ [.complete i accepted]) =
    results i before ++ [accepted] := by
  rw [results_append, results, if_pos rfl, results]

theorem results_complete_of_ne {j : ℕ} (h : i ≠ j) :
    results j (before ++ [.complete i accepted]) = results j before := by
  rw [results_append, results, if_neg h, results, List.append_nil]

theorem Recorded.dispatch (hrec : Recorded before s) (response : List UInt8) :
    Recorded (before ++ [.dispatch response]) { s with
      responses := s.responses ++ [response]
      suspended := s.suspended ++ [s.responses.length] } where
  responses := by
    show s.responses ++ [response] = _
    rw [dispatched_append, hrec.responses]
    rfl
  written j := by
    rw [results_dispatch]
    exact hrec.written j
  pending j hj := by
    rw [results_dispatch]
    rcases hj with hmem | hle
    · rcases List.mem_append.mp hmem with hold | hnew
      · exact hrec.pending j (Or.inl hold)
      · exact hrec.pending j (Or.inr (Nat.le_of_eq (List.mem_singleton.mp hnew).symm))
    · refine hrec.pending j (Or.inr (Nat.le_trans ?_ hle))
      simp
  single j := by
    rw [results_dispatch]
    exact hrec.single j

theorem Recorded.complete (hrec : Recorded before s) (hinv : Inv s) (hi : i ∈ s.suspended)
    (haccepted : accepted ≤ (s.response i).length) :
    Recorded (before ++ [.complete i accepted]) { s with
      suspended := s.suspended.erase i
      placed := s.placed ++ tag i ((s.response i).take accepted) } where
  responses := by
    rw [dispatched_append]
    exact hrec.responses.trans (List.append_nil _).symm
  written j := by
    show countOf j (s.placed ++ _) = _
    rw [countOf_append]
    by_cases hij : i = j
    · subst hij
      have hnone : countOf i s.placed = 0 := hinv.fresh i hi
      rw [results_complete, hrec.pending i (Or.inl hi), hnone, countOf_tag,
        List.length_take_of_le haccepted, Nat.zero_add]
      rfl
    · rw [results_complete_of_ne hij, countOf_tag_of_ne hij, Nat.add_zero, ← hrec.written j]
      rfl
  pending j hj := by
    have hij : i ≠ j := by
      rintro rfl
      rcases hj with hmem | hle
      · exact (hinv.once.mem_erase_iff.mp hmem).1 rfl
      · exact absurd (hinv.dispatched i hi) (Nat.not_lt.mpr hle)
    rw [results_complete_of_ne hij]
    exact hrec.pending j (hj.imp_left List.mem_of_mem_erase)
  single j := by
    by_cases hij : i = j
    · subst hij
      rw [results_complete, hrec.pending i (Or.inl hi)]
      exact Nat.le_refl 1
    · rw [results_complete_of_ne hij]
      exact hrec.single j

theorem Recorded.step (hrec : Recorded before s) (hinv : Inv s) (hs : s.step a = some s') :
    Recorded (before ++ [a]) s' := by
  obtain ⟨response, rfl, rfl⟩ | ⟨i, accepted, rfl, hi, haccepted, rfl⟩ := step_cases hs
  · exact hrec.dispatch response
  · exact hrec.complete hinv hi haccepted

/-- A write comes in its turn exactly if schedule and transport allow it. -/
theorem Recorded.inTurn_iff (hrec : Recorded before s) :
    s.InTurn a ↔ Scheduled before a ∧ TakenWhole before a := by
  cases a with
  | dispatch response => exact ⟨fun _ => ⟨trivial, trivial⟩, fun _ => trivial⟩
  | complete i accepted =>
    have hresponse : ∀ j, s.response j = (dispatched before).getD j [] := fun j =>
      congrArg (List.getD · j []) hrec.responses
    constructor
    · intro hturn
      refine ⟨fun hpos j hj => ?_, fun hpos j hj size hsize => ?_⟩
      · have hwritten := hturn hpos j hj
        rw [hrec.written, hresponse] at hwritten
        by_cases hnone : results j before = []
        · rw [hnone] at hwritten
          exact Or.inl (List.length_eq_zero_iff.mp hwritten.symm)
        · exact Or.inr hnone
      · have hwritten := hturn hpos j hj
        rw [hrec.written, hresponse] at hwritten
        have hsingle := hrec.single j
        cases hresults : results j before with
        | nil =>
          rw [hresults] at hsize
          cases hsize
        | cons first rest =>
          rw [hresults] at hsize hwritten hsingle
          obtain rfl : rest = [] := List.length_eq_zero_iff.mp (Nat.le_zero.mp
            (Nat.le_of_succ_le_succ hsingle))
          rw [List.mem_singleton.mp hsize]
          exact hwritten
    · rintro ⟨hscheduled, htaken⟩ hpos j hj
      rw [hrec.written, hresponse]
      cases hresults : results j before with
      | nil =>
        rcases hscheduled hpos j hj with hempty | hsome
        · rw [hempty]
          rfl
        · exact absurd hresults hsome
      | cons first rest =>
        have hmem : first ∈ results j before := by
          rw [hresults]
          exact List.mem_cons_self ..
        exact htaken hpos j hj first hmem

/-- The rest of a run is in order exactly if its schedule and its transport are. -/
theorem inOrder_rest_iff (hinv : Inv s) (hrec : Recorded before s) {actions : List Action}
    {t : State} (hrun : s.run actions = some t) :
    (∀ pre u, pre <+: actions → s.run pre = some u → InOrder u) ↔ Orderly before actions := by
  induction actions generalizing before s with
  | nil =>
    refine iff_of_true (fun pre u hpre hu => ?_) trivial
    rw [List.prefix_nil.mp hpre] at hu
    cases hu
    exact hinv.inOrder
  | cons a actions ih =>
    unfold State.run at hrun
    rw [List.foldlM_cons] at hrun
    cases hs : s.step a with
    | none =>
      rw [hs] at hrun
      cases hrun
    | some s₁ =>
      rw [hs] at hrun
      have hfirst : ∀ pre, s.run (a :: pre) = s₁.run pre := fun pre => by
        unfold State.run
        rw [List.foldlM_cons, hs]
        rfl
      have hrec₁ := hrec.step hinv hs
      constructor
      · intro hall
        have hturn : s.InTurn a := by
          have hone := hall [a] s₁ ⟨actions, rfl⟩ (hfirst [])
          obtain ⟨response, rfl, rfl⟩ | ⟨i, accepted, rfl, hi, haccepted, rfl⟩ := step_cases hs
          · trivial
          · exact (hinv.inOrder_complete hi haccepted).mp hone
        refine ⟨hrec.inTurn_iff.mp hturn, (ih (hinv.step hturn hs) hrec₁ hrun).mp ?_⟩
        intro pre u hpre hu
        exact hall (a :: pre) u (List.cons_prefix_cons.mpr ⟨rfl, hpre⟩) ((hfirst pre).trans hu)
      · rintro ⟨horderly, hrest⟩ pre u hpre hu
        have hturn := hrec.inTurn_iff.mpr horderly
        cases pre with
        | nil =>
          cases hu
          exact hinv.inOrder
        | cons first pre =>
          obtain ⟨rfl, hpre'⟩ := List.cons_prefix_cons.mp hpre
          exact (ih (hinv.step hturn hs) hrec₁ hrun).mpr hrest pre u hpre'
            ((hfirst pre).symm.trans hu)

end Recording

/-- Responses of any length, handlers that complete in any order and writes with any result: a run
is in order from its start to its end exactly if each write that the transport accepts bytes of
comes when the earlier handlers have completed and the transport has taken their responses
whole. -/
theorem inOrder_iff_orderly {actions : List Action} {t : State}
    (hrun : init.run actions = some t) :
    (∀ pre s, pre <+: actions → init.run pre = some s → InOrder s) ↔ Orderly [] actions :=
  inOrder_rest_iff inv_init recorded_init hrun

/-- The second of three requests would block, the first is written, and the third has to wait for
the rest of the second, which never comes. -/
def blockedActions : List Action :=
  [.dispatch [72, 73], .dispatch [74], .dispatch [75], .complete 1 0, .complete 0 2]

theorem inOrder_iff_orderly_blocked :
    (∀ pre s, pre <+: blockedActions → init.run pre = some s → InOrder s) ∧
      ¬ ∀ pre s, pre <+: blockedActions ++ [.complete 2 1] → init.run pre = some s →
        InOrder s := by
  constructor
  · have hrun : init.run blockedActions = some _ := rfl
    exact (inOrder_iff_orderly hrun).mpr (by simp only [blockedActions, Orderly]; decide)
  · have hrun : init.run (blockedActions ++ [.complete 2 1]) = some _ := rfl
    exact fun hall => absurd ((inOrder_iff_orderly hrun).mp hall) (by
      simp only [blockedActions, List.cons_append, List.nil_append, Orderly]
      decide)

/-- The second of two requests completes first. -/
theorem not_inOrder_overtaken : ¬ ∀ s,
    Runs.Reaches State.step (fun _ _ => True) init s → InOrder s := by
  intro h
  have hrun := Runs.Reaches.follow [.dispatch [72], .dispatch [73], .complete 1 1]
    (.start : Runs.Reaches State.step (fun _ _ => True) init init) rfl
  have hprefix := h _ hrun
  have hhead : [(1, (73 : UInt8))] <+: [(0, 72), (1, 73)] := hprefix
  cases (List.cons_prefix_cons.mp hhead).1

end Runs

end OrderBookServer.ResponseStream
