import Mathlib.Data.List.Lookmap
import OrderBookServer.HttpRequest

/-!
What the stages of a request read while no position is lost in an `int`: the pieces between
delimiters, the headers of the lines that have one name and one value, the parts of an address.
-/
namespace OrderBookServer

open StdString Occurrences

variable {str del : Text}

theorem splitFrom_eq (hdel : del ≠ []) (hsize : str.length < 2147483648) {turns start : ℕ}
    {stop : ℤ} {res : List Text} (hstart : toInt (sizeT stop + del.length) = start)
    (hle : start ≤ str.length) (hturns : str.length - start < turns) :
    splitFrom str del turns stop res = .ok (res ++ splitOn del (str.drop start)) := by
  induction turns generalizing start stop res with
  | zero => omega
  | succ turns ih =>
    have hat : sizeT start = start := by
      have hcast : (sizeT start : ℤ) = start := sizeT_of_lt (by omega) (by omega)
      omega
    unfold splitFrom
    simp only [hstart, hat]
    cases hfind : indexOf del (str.drop start) with
    | none =>
      rw [find_of_none hfind, splitOn_of_none hfind]
      have hrest : str.length ≤ start + sizeT (str.length - start) := by
        unfold sizeT
        omega
      simp only [toInt_npos, substr_rest hle hrest]
      rfl
    | some i =>
      have hend := add_length_le_of_find hle hfind
      have hpos : 0 < del.length := List.length_pos_iff.mpr hdel
      have hfuel : str.length - (start + i + del.length) < turns := by omega
      have hstop : toInt (start + i : ℕ) = (start + i : ℕ) := toInt_of_lt (by omega) (by omega)
      have hne : ((start + i : ℕ) : ℤ) ≠ -1 := by omega
      have hcount : sizeT (toInt ((start + i : ℕ) - (start : ℤ))) = i := by
        unfold sizeT toInt
        omega
      have hnext : toInt (sizeT (start + i : ℕ) + del.length) = (start + i + del.length : ℕ) := by
        unfold sizeT toInt
        omega
      rw [find_of_some hle hfind, splitOn_of_some hdel hfind, List.drop_drop]
      simp only [hstop, ne_eq, hne, not_false_eq_true, if_true, hcount, substr_of_le hle]
      change splitFrom str del turns (start + i : ℕ) _ = _
      rw [ih hnext hend hfuel, List.append_assoc, ← Nat.add_assoc]
      rfl

theorem splitString_eq (hdel : del ≠ []) (hsize : str.length < 2147483648) {turns : ℕ}
    (hturns : str.length < turns) : splitString turns str del = .ok (splitOn del str) := by
  have hstart : toInt (sizeT (toInt (-1 * del.length)) + del.length) = (0 : ℕ) := by
    unfold sizeT toInt
    omega
  unfold splitString
  rw [splitFrom_eq hdel hsize hstart (by omega) (by omega), List.drop_zero, List.nil_append]

/-- The pieces are what the leftmost occurrences of the delimiter leave of the text. -/
structure SplitsInto (str del : Text) (pieces : List Text) : Prop where
  joined : del.intercalate pieces = str
  leftmost : ∃ positions, Leftmost del str 0 positions ∧
    pieces = cutAt del.length str 0 positions ∧ pieces.length = positions.length + 1
  without : ∀ piece ∈ pieces, ¬ del <:+: piece

theorem splitsInto_splitOn (hdel : del ≠ []) : SplitsInto str del (splitOn del str) where
  joined := intercalate_splitOn del str
  leftmost := by
    obtain ⟨positions, hpositions, hcut⟩ := exists_leftmost hdel (Nat.zero_le str.length)
    rw [List.drop_zero] at hcut
    exact ⟨positions, hpositions, hcut, by rw [hcut, length_cutAt]⟩
  without _ hpiece := notInfix_of_mem_splitOn hdel hpiece

/-- `split_string` ends and returns the leftmost splitting. -/
theorem splitsInto_of_nonempty (hdel : del ≠ []) (hsize : str.length < 2147483648) :
    ∃ pieces, (∀ turns, str.length < turns → splitString turns str del = .ok pieces) ∧
      SplitsInto str del pieces :=
  ⟨splitOn del str, fun _ hturns => splitString_eq hdel hsize hturns, splitsInto_splitOn hdel⟩

/-- The delimiter `aa` occurs at two places of this text that overlap. -/
def overlapping : Text := ['a', 'a', 'a', 'b', 'a']

theorem splitsInto_of_nonempty_overlapping : ∃ pieces,
    (∀ turns, overlapping.length < turns →
      splitString turns overlapping ['a', 'a'] = .ok pieces) ∧
    SplitsInto overlapping ['a', 'a'] pieces := by
  apply splitsInto_of_nonempty
  · exact List.cons_ne_nil _ _
  · decide

namespace HttpRequest

section Params

/-- Entries go into a map one after the other. -/
def insertAll (params entries : List (Text × Text)) : List (Text × Text) :=
  entries.foldl (fun params entry => insertParam params entry.1 entry.2) params

variable {params entries : List (Text × Text)} {key value name : Text}

theorem lookup_insertParam :
    (insertParam params key value).lookup name = (params ++ [(key, value)]).lookup name := by
  unfold insertParam
  by_cases hkey : (params.lookup key).isSome
  · obtain ⟨old, hold⟩ := Option.isSome_iff_exists.mp hkey
    rw [if_pos hkey, List.lookup_append]
    by_cases heq : name = key
    · rw [heq, hold, Option.some_or]
    · have hother : (name == key) = false := by simpa using heq
      rw [List.lookup_cons, hother, List.lookup_nil, Option.or_none]
  · rw [if_neg hkey]

/-- The first entry of a name is the one that is found. -/
theorem lookup_insertAll :
    (insertAll params entries).lookup name = (params ++ entries).lookup name := by
  induction entries generalizing params with
  | nil => simp [insertAll]
  | cons entry entries ih =>
    have hrest : (insertAll (insertParam params entry.1 entry.2) entries).lookup name =
        (insertParam params entry.1 entry.2 ++ entries).lookup name := ih
    rw [List.lookup_append, lookup_insertParam, ← List.lookup_append, List.append_assoc] at hrest
    exact hrest

theorem insertAll_append_of_nodup (h : ((params ++ entries).map Prod.fst).Nodup) :
    insertAll params entries = params ++ entries := by
  induction entries generalizing params with
  | nil => simp [insertAll]
  | cons entry entries ih =>
    have hnew : params.lookup entry.1 = none := by
      rw [List.lookup_eq_none_iff]
      intro p hp
      rw [List.map_append, List.nodup_append] at h
      have hne := h.2.2 p.1 (List.mem_map_of_mem hp) entry.1 (by simp)
      simpa using fun heq => hne heq.symm
    have hone : insertParam params entry.1 entry.2 = params ++ [entry] := by
      simp [insertParam, hnew]
    have hassoc : params ++ entry :: entries = (params ++ [entry]) ++ entries := by simp
    rw [hassoc] at h ⊢
    rw [← ih h, ← hone]
    rfl

/-- In a map an entry is there exactly when it is the one that is found. -/
theorem mem_iff_lookup {α : Type} {l : List (Text × α)} {v : α} (hl : (l.map Prod.fst).Nodup) :
    (name, v) ∈ l ↔ l.lookup name = some v := by
  induction l with
  | nil => simp
  | cons e l ih =>
    obtain ⟨key, w⟩ := e
    rw [List.map_cons, List.nodup_cons] at hl
    rw [List.mem_cons, Prod.mk.injEq, List.lookup_cons]
    by_cases hkey : name = key
    · have hnot : (key, v) ∉ l := fun hmem => hl.1 (List.mem_map.mpr ⟨(key, v), hmem, rfl⟩)
      simp [hkey, hnot, eq_comm]
    · simp [hkey, beq_eq_false_iff_ne.mpr hkey, ih hl.2]

end Params

section Headers

/-- The header of a line that has one name and one value. -/
def headerOf (line : Text) : Option (Text × Text) :=
  match splitOn [':', ' '] line with
  | [key, value] => some (key, value)
  | _ => none

/-- Two positions behind the first end of a line, whichever character it is. -/
def headerStart (content : Text) : ℕ :=
  match content.findIdx? fun c => c ∈ crlf with
  | some i => i + 2
  | none => 1

/-- All the rest, too, where the blank line is missing or begins in front. -/
def headerSection (content : Text) : Text :=
  match indexOf (crlf ++ crlf) content with
  | some i =>
    if headerStart content ≤ i then
      (content.drop (headerStart content)).take (i - headerStart content)
    else content.drop (headerStart content)
  | none => content.drop (headerStart content)

def headersOf (content : Text) : List (Text × Text) :=
  (splitOn crlf (headerSection content)).filterMap headerOf

variable {content : Text} {turns : ℕ} {lines : List Text} {params : List (Text × Text)}
  {δ : Type} {request : HttpRequest δ}

theorem headerParamsFrom_eq
    (hlines : ∀ line ∈ lines, line.length < 2147483648 ∧ line.length < turns) :
    headerParamsFrom turns lines params = .ok (insertAll params (lines.filterMap headerOf)) := by
  induction lines generalizing params with
  | nil => rfl
  | cons line lines ih =>
    obtain ⟨hsize, hturns⟩ := hlines line (List.mem_cons_self ..)
    have htail := fun l hl => hlines l (List.mem_cons_of_mem line hl)
    have hsplit := splitString_eq (List.cons_ne_nil ':' [' ']) hsize hturns
    unfold headerParamsFrom
    rw [hsplit, ok_bind]
    cases hheader : headerOf line with
    | none =>
      rw [List.filterMap_cons_none hheader, ← ih htail]
      unfold headerOf at hheader
      split at hheader
      · cases hheader
      · rename_i hnot
        split
        · rename_i key value heq
          exact absurd heq (hnot key value)
        · rfl
    | some header =>
      rw [List.filterMap_cons_some hheader]
      unfold headerOf at hheader
      split at hheader
      · rename_i key value heq
        obtain rfl := Option.some.inj hheader
        rw [heq]
        exact ih htail
      · cases hheader

theorem sizeT_headerStart (hsize : content.length < 9223372036854775808) :
    sizeT (findFirstOf content crlf 0 + 2) = headerStart content := by
  unfold headerStart
  have hdrop : content.drop 0 = content := List.drop_zero
  cases hfind : content.findIdx? fun c => c ∈ crlf with
  | none =>
    rw [findFirstOf_of_none (by rw [hdrop, hfind])]
    rfl
  | some i =>
    have hlt : i < content.length := by
      obtain ⟨hlt, _⟩ := List.findIdx?_eq_some_iff_getElem.mp hfind
      exact hlt
    rw [findFirstOf_of_some (Nat.zero_le _) (by rw [hdrop, hfind]), Nat.zero_add]
    change sizeT ((i : ℤ) + 2) = i + 2
    unfold sizeT
    omega

theorem substr_headers (hsize : content.length < 9223372036854775808)
    (hstart : headerStart content ≤ content.length) :
    substr content (headerStart content)
      (sizeT (find content (crlf ++ crlf) 0 - headerStart content)) =
      .ok (headerSection content) := by
  have hdrop : content.drop 0 = content := List.drop_zero
  unfold headerSection
  cases hfind : indexOf (crlf ++ crlf) content with
  | none =>
    rw [find_of_none (by rw [hdrop, hfind])]
    apply substr_rest hstart
    unfold sizeT npos
    omega
  | some i =>
    have hend := add_length_le_of_indexOf hfind
    rw [find_of_some (Nat.zero_le _) (by rw [hdrop, hfind]), Nat.zero_add]
    by_cases hle : headerStart content ≤ i
    · have hcount : sizeT ((i : ℤ) - headerStart content) = i - headerStart content := by
        unfold sizeT
        omega
      rw [hcount, substr_of_le hstart]
      simp only [if_pos hle]
    · simp only [if_neg hle]
      apply substr_rest hstart
      unfold sizeT
      omega

theorem length_headerSection_le (content : Text) :
    (headerSection content).length ≤ content.length := by
  unfold headerSection
  split
  · split
    · simp only [List.length_take, List.length_drop]
      omega
    · simp
  · simp

/-- The headers are read unless the text ends in the first end of a line. -/
theorem deserializeHeaderParams_eq (hsize : content.length < 9223372036854775808)
    (hheaders : (headerSection content).length < 2147483648)
    (hturns : content.length < turns) (hstart : headerStart content ≤ content.length) :
    deserializeHeaderParams turns content = .ok (insertAll [] (headersOf content)) := by
  have hsection := length_headerSection_le content
  have hsplit := splitString_eq (List.cons_ne_nil '\r' ['\n'])
    hheaders (Nat.lt_of_le_of_lt hsection hturns)
  have hread : headerParamsFrom turns (splitOn crlf (headerSection content)) [] =
      .ok (insertAll [] (headersOf content)) := by
    apply headerParamsFrom_eq
    intro line hline
    have hle := length_le_of_mem_splitOn hline
    omega
  unfold deserializeHeaderParams
  simp only [sizeT_headerStart hsize, substr_headers hsize hstart, ok_bind]
  rw [show splitString turns (headerSection content) crlf = _ from hsplit, ok_bind]
  exact hread

theorem deserializeHeaderParams_of_lt (hsize : content.length < 9223372036854775808)
    (hstart : content.length < headerStart content) :
    deserializeHeaderParams turns content = .error .outOfRange := by
  unfold deserializeHeaderParams
  simp only [sizeT_headerStart hsize, substr_of_lt hstart, error_bind]

/-- What is found of a header is what the first of its lines has. -/
theorem getHeaderParam_eq (hparams : request.headerParams = insertAll [] (headersOf content))
    (name : Text) :
    request.getHeaderParam name = ((headersOf content).lookup name).getD paramNotFound := by
  unfold getHeaderParam
  rw [hparams, lookup_insertAll, List.nil_append]
  cases (headersOf content).lookup name with
  | none => rfl
  | some value => rfl

end Headers

section Query

variable {content url queryString : Text}

/-- The address is read from any text with a blank. -/
theorem deserializeUrl_ok (hsize : content.length < 9223372036854775808)
    (hblank : findFirstOf content [' '] 0 < content.length) :
    ∃ url, deserializeUrl content = .ok url := by
  unfold deserializeUrl
  have hpos : sizeT (findFirstOf content [' '] 0 + 1) = findFirstOf content [' '] 0 + 1 := by
    unfold sizeT
    omega
  simp only [hpos]
  split
  · exact ⟨[], rfl⟩
  · rw [substr_of_le (by omega)]
    exact ⟨_, rfl⟩

/-- The address is what is between the first two blanks. -/
theorem deserializeUrl_between {method target rest : Text} (hmethod : ' ' ∉ method)
    (htarget : ' ' ∉ target)
    (hsize : (method ++ ' ' :: (target ++ ' ' :: rest)).length < 9223372036854775808) :
    deserializeUrl (method ++ ' ' :: (target ++ ' ' :: rest)) = .ok target := by
  have hblank : ∀ a : Text, ' ' ∉ a → ∀ b : Text,
      ((a ++ ' ' :: b).findIdx? fun c => c ∈ [' ']) = some a.length := by
    intro a ha b
    apply findIdx?_append_of_notMem _ _ (List.mem_singleton_self ' ')
    exact fun c hc hmem => ha (List.mem_singleton.mp hmem ▸ hc)
  have hdrop : (method ++ ' ' :: (target ++ ' ' :: rest)).drop (method.length + 1) =
      target ++ ' ' :: rest := by
    rw [← List.drop_drop, List.drop_left, List.drop_one, List.tail_cons]
  have hlength : (method ++ ' ' :: (target ++ ' ' :: rest)).length =
      method.length + 1 + (target.length + 1 + rest.length) := by
    simp only [List.length_append, List.length_cons]
    omega
  have hfirst : findFirstOf (method ++ ' ' :: (target ++ ' ' :: rest)) [' '] 0 =
      method.length := by
    rw [findFirstOf_of_some (Nat.zero_le _) (by rw [List.drop_zero, hblank _ hmethod]),
      Nat.zero_add]
  have hsecond : findFirstOf (method ++ ' ' :: (target ++ ' ' :: rest)) [' ']
      (method.length + 1) = method.length + 1 + target.length := by
    apply findFirstOf_of_some (by omega)
    rw [hdrop, hblank _ htarget]
  have hstart : sizeT ((method.length : ℤ) + 1) = method.length + 1 := by
    unfold sizeT
    omega
  have hfound : ¬ method.length + 1 + target.length = npos := by
    unfold npos
    omega
  have hcount : sizeT (((method.length + 1 + target.length : ℕ) : ℤ) - method.length - 1) =
      target.length := by
    unfold sizeT
    omega
  unfold deserializeUrl
  simp only [hfirst, hstart, hsecond, if_neg hfound, hcount]
  rw [substr_of_le (by omega), hdrop, List.take_left]

theorem length_le_of_deserializeUrl (h : deserializeUrl content = .ok url) :
    url.length ≤ content.length := by
  unfold deserializeUrl at h
  simp only at h
  split at h
  · obtain rfl := Except.ok.inj h
    exact Nat.zero_le _
  · exact length_le_of_substr h

/-- The two parts of a text at the character at `i`. -/
theorem substr_parts {text : Text} {i : ℕ} (hi : i + 1 ≤ text.length)
    (hsize : text.length < 9223372036854775808) :
    substr text 0 (sizeT i) = .ok (text.take i) ∧
      substr text (sizeT ((i : ℤ) + 1)) (sizeT ((text.length : ℤ) - 1)) =
        .ok (text.drop (i + 1)) := by
  have hat : sizeT i = i := sizeT_natCast (by omega)
  have hnext : sizeT ((i : ℤ) + 1) = i + 1 := by
    unfold sizeT
    omega
  have hrest : text.length ≤ i + 1 + sizeT ((text.length : ℤ) - 1) := by
    unfold sizeT
    omega
  constructor
  · rw [hat, substr_of_le (Nat.zero_le _), List.drop_zero]
  · rw [hnext, substr_rest hi hrest]

/-- The question mark is found unless its position is lost in an `int`. -/
theorem deserializeQueryString_of_mark (hsize : url.length < 9223372036854775808)
    (hmark : ∀ i, indexOf ['?'] url = some i → i < 2147483648) :
    deserializeQueryString url = .ok (match indexOf ['?'] url with
      | some i => (url.take i, url.drop (i + 1))
      | none => (url, [])) := by
  have hdrop : url.drop 0 = url := List.drop_zero
  unfold deserializeQueryString
  cases hfind : indexOf ['?'] url with
  | none =>
    rw [find_of_none (by rw [hdrop, hfind])]
    rfl
  | some i =>
    have hlt := hmark i hfind
    have hend := add_length_le_of_indexOf hfind
    rw [List.length_singleton] at hend
    rw [find_of_some (Nat.zero_le _) (by rw [hdrop, hfind]), Nat.zero_add]
    have hint : toInt i = i := toInt_of_lt (by omega) (by omega)
    have hne : (i : ℤ) ≠ -1 := by omega
    obtain ⟨hpath, hquery⟩ := substr_parts hend hsize
    simp only [hint, if_pos hne, hpath, hquery]
    rfl

theorem deserializeQueryString_eq (hsize : url.length < 2147483648) :
    deserializeQueryString url = .ok (match indexOf ['?'] url with
      | some i => (url.take i, url.drop (i + 1))
      | none => (url, [])) := by
  apply deserializeQueryString_of_mark
  · omega
  · intro i hi
    have hend := add_length_le_of_indexOf hi
    omega

/-- An address without a question mark in front of its query. -/
theorem deserializeQueryString_append {path query : Text} (hpath : '?' ∉ path)
    (hlt : path.length < 2147483648)
    (hsize : (path ++ '?' :: query).length < 9223372036854775808) :
    deserializeQueryString (path ++ '?' :: query) = .ok (path, query) := by
  have hfind : indexOf ['?'] (path ++ '?' :: query) = some path.length :=
    indexOf_append_of_notMem hpath
  have hmark : ∀ i, indexOf ['?'] (path ++ '?' :: query) = some i → i < 2147483648 := by
    intro i hi
    rw [hfind] at hi
    obtain rfl := Option.some.inj hi
    exact hlt
  rw [deserializeQueryString_of_mark hsize hmark, hfind]
  simp only [List.take_left, ← List.drop_drop, List.drop_left, List.drop_one, List.tail_cons]

theorem deserializeQueryString_ok (hsize : url.length < 2147483648) :
    ∃ path queryString, deserializeQueryString url = .ok (path, queryString) ∧
      queryString.length ≤ url.length := by
  rw [deserializeQueryString_eq hsize]
  cases indexOf ['?'] url with
  | none => exact ⟨url, [], rfl, Nat.zero_le _⟩
  | some i =>
    refine ⟨url.take i, url.drop (i + 1), rfl, ?_⟩
    rw [List.length_drop]
    omega

/-- The end of the parameter that begins at `start`. -/
def paramEnd (queryString : Text) (start : ℕ) : ℕ :=
  start + ((queryString.drop start).takeWhile fun c => c ≠ '&').length

def paramAt (queryString : Text) (start : ℕ) : Text :=
  (queryString.drop start).take (paramEnd queryString start - start)

theorem length_paramAt_le (queryString : Text) (start : ℕ) :
    (paramAt queryString start).length ≤ queryString.length := by
  unfold paramAt
  rw [List.length_take, List.length_drop]
  omega

/-- The loop ends with the first parameter that has no equals sign. -/
theorem queryParamsFrom_of_equals (hsize : queryString.length < 9223372036854775808) {start : ℕ}
    (hlt : start < queryString.length)
    (hequals : ∀ i, indexOf ['='] (paramAt queryString start) = some i → i < 2147483648)
    (turns : ℕ) (params : List (Text × Text)) :
    queryParamsFrom queryString (turns + 1) start params =
      match indexOf ['='] (paramAt queryString start) with
      | none => .ok params
      | some i => queryParamsFrom queryString turns (paramEnd queryString start + 1)
          (insertParam params ((paramAt queryString start).take i)
            ((paramAt queryString start).drop (i + 1))) := by
  have hle := length_paramAt_le queryString start
  conv => lhs; unfold queryParamsFrom
  have hparam : (queryString.drop start).take
      (start + ((queryString.drop start).takeWhile fun c => c ≠ '&').length - start) =
      paramAt queryString start := rfl
  simp only [if_pos hlt, substr_of_le hlt.le, ok_bind, hparam]
  generalize paramAt queryString start = param at hle hequals ⊢
  have hdrop : param.drop 0 = param := List.drop_zero
  cases hfind : indexOf ['='] param with
  | none =>
    rw [find_of_none (by rw [hdrop, hfind])]
    rfl
  | some i =>
    have hshort := hequals i hfind
    have hend := add_length_le_of_indexOf hfind
    rw [List.length_singleton] at hend
    rw [find_of_some (Nat.zero_le _) (by rw [hdrop, hfind]), Nat.zero_add]
    have hint : toInt i = i := toInt_of_lt (by omega) (by omega)
    have hfound : ¬ (i : ℤ) < 0 := by omega
    obtain ⟨hkey, hvalue⟩ := substr_parts hend (Nat.lt_of_le_of_lt hle hsize)
    simp only [hint, if_neg hfound, hkey, hvalue, ok_bind]
    rfl

theorem queryParamsFrom_of_lt (hsize : queryString.length < 2147483648) {start : ℕ}
    (hlt : start < queryString.length) (turns : ℕ) (params : List (Text × Text)) :
    queryParamsFrom queryString (turns + 1) start params =
      match indexOf ['='] (paramAt queryString start) with
      | none => .ok params
      | some i => queryParamsFrom queryString turns (paramEnd queryString start + 1)
          (insertParam params ((paramAt queryString start).take i)
            ((paramAt queryString start).drop (i + 1))) := by
  apply queryParamsFrom_of_equals (by omega) hlt
  intro i hi
  have hle := length_paramAt_le queryString start
  have hend := add_length_le_of_indexOf hi
  omega

theorem queryParamsFrom_ok (hsize : queryString.length < 2147483648) {n start : ℕ}
    (params : List (Text × Text)) (hn : queryString.length - start < n) :
    ∃ res, ∀ turns, n ≤ turns → queryParamsFrom queryString turns start params = .ok res := by
  induction n generalizing start params with
  | zero => omega
  | succ n ih =>
    by_cases hlt : start < queryString.length
    · have hstep := queryParamsFrom_of_lt hsize hlt
      cases hfind : indexOf ['='] (paramAt queryString start) with
      | none =>
        refine ⟨params, fun turns hturns => ?_⟩
        obtain ⟨turns, rfl⟩ : ∃ rest, turns = rest + 1 := ⟨turns - 1, by omega⟩
        rw [hstep, hfind]
      | some i =>
        have hstart : start ≤ paramEnd queryString start := Nat.le_add_right _ _
        have hfuel : queryString.length - (paramEnd queryString start + 1) < n := by omega
        obtain ⟨res, hres⟩ := ih (insertParam params ((paramAt queryString start).take i)
          ((paramAt queryString start).drop (i + 1))) hfuel
        refine ⟨res, fun turns hturns => ?_⟩
        obtain ⟨turns, rfl⟩ : ∃ rest, turns = rest + 1 := ⟨turns - 1, by omega⟩
        rw [hstep, hfind]
        exact hres turns (by omega)
    · refine ⟨params, fun turns hturns => ?_⟩
      obtain ⟨turns, rfl⟩ : ∃ rest, turns = rest + 1 := ⟨turns - 1, by omega⟩
      unfold queryParamsFrom
      rw [if_neg hlt]

theorem deserializeQueryParams_returns (hsize : queryString.length < 2147483648) :
    ∃ res, Returns (fun turns => deserializeQueryParams turns queryString) res := by
  obtain ⟨res, hres⟩ := queryParamsFrom_ok hsize []
    (Nat.lt_succ_self (queryString.length - 0))
  exact ⟨res, _, hres⟩

end Query

end HttpRequest

end OrderBookServer
