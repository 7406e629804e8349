import Mathlib.Data.List.Nodup
import OrderBookServer.HttpReading

/-!
Lines between the first line of a request and its blank line, and which of them are found as
headers. A line with a second colon and blank is passed over. Without any line the start of the
section is behind its end, and the lines of the body are read instead.
-/
namespace OrderBookServer

open StdString Occurrences HttpRequest

/-- No line ends inside, nor at the character behind, and the line is not a blank one. -/
structure IsLine (line : Text) : Prop where
  ne_nil : line ≠ []
  skips : ∀ rest, Skips crlf line rest

/-- Each line with the end of the one in front. -/
def precededLines (lines : List Text) : Text := lines.flatMap fun line => crlf ++ line

section Lines

variable {firstLine body line : Text} {lines : List Text}

theorem precededLines_cons (line : Text) (lines : List Text) :
    precededLines (line :: lines) = crlf ++ (line ++ precededLines lines) := by
  simp [precededLines]

theorem splitOn_precededLines (hline : IsLine line) (hlines : ∀ l ∈ lines, IsLine l) :
    splitOn crlf (line ++ precededLines lines) = line :: lines := by
  induction lines generalizing line with
  | nil =>
    have hnone : indexOf crlf line = none :=
      indexOf_eq_none_iff_notInfix.mpr (notInfix_of_skips (List.cons_ne_nil _ _) (hline.skips []))
    rw [precededLines, List.flatMap_nil, List.append_nil, splitOn_of_none hnone]
  | cons next lines ih =>
    have hcrlf : crlf ≠ [] := List.cons_ne_nil _ _
    have hnext := ih (hlines next (List.mem_cons_self ..))
      fun l hl => hlines l (List.mem_cons_of_mem next hl)
    rw [precededLines_cons, splitOn_of_skips hcrlf (hline.skips _), hnext]

/-- No blank line begins in a line or in the end of the one in front of it. -/
theorem skips_blankLine (hline : IsLine line) (rest : Text) :
    Skips (crlf ++ crlf) (crlf ++ line) rest := by
  apply Skips.append
  · intro j hj hat
    match j with
    | 0 =>
      have hfront : crlf <+: line ++ rest := (List.prefix_append_right_inj crlf).mp hat
      exact hline.skips rest 0 (List.length_pos_iff.mpr hline.ne_nil) hfront
    | 1 => simp [crlf] at hat
    | k + 2 =>
      simp only [crlf, List.length_cons, List.length_nil] at hj
      omega
  · exact (hline.skips rest).of_isPrefix (List.prefix_append crlf crlf)

theorem skips_precededLines (hlines : ∀ l ∈ lines, IsLine l) (rest : Text) :
    Skips (crlf ++ crlf) (precededLines lines) rest := by
  induction lines with
  | nil => exact fun j hj => absurd hj (Nat.not_lt_zero j)
  | cons line lines ih =>
    rw [precededLines_cons, ← List.append_assoc]
    apply Skips.append
    · exact skips_blankLine (hlines line (List.mem_cons_self ..)) _
    · exact ih fun l hl => hlines l (List.mem_cons_of_mem line hl)

/-- The first blank line is the one behind the lines. -/
theorem indexOf_blankLine (hfirst : ∀ c ∈ firstLine, c ∉ crlf) (hlines : ∀ l ∈ lines, IsLine l) :
    indexOf (crlf ++ crlf) (firstLine ++ (precededLines lines ++ (crlf ++ crlf ++ body))) =
      some (firstLine.length + (precededLines lines).length) := by
  have hcr : '\r' ∉ firstLine := fun hmem => hfirst '\r' hmem (List.mem_cons_self ..)
  have hskips : Skips (crlf ++ crlf) (firstLine ++ precededLines lines)
      (crlf ++ crlf ++ body) :=
    Skips.append (skips_of_notMem hcr) (skips_precededLines hlines _)
  rw [← List.append_assoc, indexOf_of_skips_self hskips, List.length_append]

theorem headerStart_lines (hfirst : ∀ c ∈ firstLine, c ∉ crlf) :
    headerStart (firstLine ++ (precededLines lines ++ (crlf ++ crlf ++ body))) =
      firstLine.length + 2 := by
  obtain ⟨rest, hrest⟩ : ∃ rest,
      precededLines lines ++ (crlf ++ crlf ++ body) = '\r' :: rest := by
    cases lines with
    | nil => exact ⟨_, rfl⟩
    | cons line lines => exact ⟨_, by rw [precededLines_cons]; rfl⟩
  unfold headerStart
  rw [hrest, findIdx?_append_of_notMem _ hfirst (List.mem_cons_self ..)]

/-- The section of the headers, with the position of the first blank line. -/
theorem headerSection_lines (hfirst : ∀ c ∈ firstLine, c ∉ crlf)
    (hlines : ∀ l ∈ lines, IsLine l) :
    headerSection (firstLine ++ (precededLines lines ++ (crlf ++ crlf ++ body))) =
      match lines with
      | [] => crlf ++ body
      | line :: lines => line ++ precededLines lines := by
  have hdrop : (firstLine ++ (precededLines lines ++ (crlf ++ crlf ++ body))).drop
      (firstLine.length + 2) = (precededLines lines ++ (crlf ++ crlf ++ body)).drop 2 := by
    rw [← List.drop_drop, List.drop_left]
  unfold headerSection
  rw [indexOf_blankLine hfirst hlines]
  simp only [headerStart_lines hfirst, hdrop]
  cases lines with
  | nil =>
    have hbehind : ¬ firstLine.length + 2 ≤ firstLine.length + (precededLines []).length := by
      simp [precededLines]
    rw [if_neg hbehind]
    rfl
  | cons line lines =>
    have hlength : firstLine.length + (precededLines (line :: lines)).length -
        (firstLine.length + 2) = (line ++ precededLines lines).length := by
      simp [precededLines_cons, crlf]
      omega
    have hfront : firstLine.length + 2 ≤
        firstLine.length + (precededLines (line :: lines)).length := by
      simp [precededLines_cons, crlf]
    have hback : (precededLines (line :: lines) ++ (crlf ++ crlf ++ body)).drop 2 =
        line ++ precededLines lines ++ (crlf ++ crlf ++ body) := by
      rw [precededLines_cons]
      rfl
    rw [if_pos hfront, hlength, hback, List.take_left]

theorem headersOf_lines (hfirst : ∀ c ∈ firstLine, c ∉ crlf) (hlines : ∀ l ∈ lines, IsLine l)
    (hne : lines ≠ []) :
    headersOf (firstLine ++ (precededLines lines ++ (crlf ++ crlf ++ body))) =
      lines.filterMap headerOf := by
  unfold headersOf
  rw [headerSection_lines hfirst hlines]
  cases lines with
  | nil => exact absurd rfl hne
  | cons line lines =>
    rw [splitOn_precededLines (hlines line (List.mem_cons_self ..))
      fun l hl => hlines l (List.mem_cons_of_mem line hl)]

theorem headerOf_nil : headerOf [] = none := by
  have hnone : indexOf [':', ' '] [] = none := rfl
  unfold headerOf
  rw [splitOn_of_none hnone]

/-- What is read as headers where there are none. -/
theorem headersOf_noLines (hfirst : ∀ c ∈ firstLine, c ∉ crlf) :
    headersOf (firstLine ++ (precededLines [] ++ (crlf ++ crlf ++ body))) =
      (splitOn crlf body).filterMap headerOf := by
  have hblank : splitOn crlf ([] ++ (crlf ++ body)) = [] :: splitOn crlf body :=
    splitOn_append_of_notMem List.not_mem_nil
  rw [List.nil_append] at hblank
  unfold headersOf
  rw [headerSection_lines hfirst fun l hl => absurd hl List.not_mem_nil, hblank,
    List.filterMap_cons_none headerOf_nil]

end Lines

/-- A header as it is sent. -/
structure HeaderLine where
  name : Text
  value : Text
  name_clean : ∀ c ∈ name, c ≠ ':' ∧ c ≠ ' '
  name_crlf : ¬ crlf <:+: name
  value_clean : ∀ c ∈ value, c ≠ '\r' ∧ c ≠ '\n'

namespace HeaderLine

def line (h : HeaderLine) : Text := h.name ++ ([':', ' '] ++ h.value)

def entry (h : HeaderLine) : Text × Text := (h.name, h.value)

variable (h : HeaderLine)

theorem isLine_line : IsLine h.line where
  ne_nil := by simp [line]
  skips rest := by
    have hcr : '\r' ∉ [':', ' '] ++ h.value := by
      intro hmem
      rcases List.mem_append.mp hmem with hcolon | hvalue
      · simp at hcolon
      · exact (h.value_clean '\r' hvalue).1 rfl
    apply Skips.append
    · exact skips_of_notInfix h.name_crlf (by decide : ':' ∉ crlf)
    · exact skips_of_notMem hcr

theorem splitOn_line : splitOn [':', ' '] h.line = h.name :: splitOn [':', ' '] h.value :=
  splitOn_append_of_notMem fun hmem => (h.name_clean ':' hmem).1 rfl

theorem headerOf_line (hvalue : ¬ [':', ' '] <:+: h.value) : headerOf h.line = some h.entry := by
  unfold headerOf
  rw [splitOn_line, splitOn_of_none (indexOf_eq_none_iff_notInfix.mpr hvalue)]
  rfl

/-- A value with a colon and a blank is not kept in one piece. -/
theorem headerOf_line_eq_none (hvalue : [':', ' '] <:+: h.value) : headerOf h.line = none := by
  obtain ⟨i, hfound⟩ : ∃ i, indexOf [':', ' '] h.value = some i := by
    apply Option.ne_none_iff_exists'.mp
    exact fun hnone => indexOf_eq_none_iff_notInfix.mp hnone hvalue
  unfold headerOf
  rw [splitOn_line, splitOn_of_some (List.cons_ne_nil _ _) hfound]
  split
  · rename_i key value heq
    simp only [List.cons.injEq] at heq
    exact absurd heq.2.2 (splitOn_ne_nil _ _)
  · rfl

end HeaderLine

/-- A request up to its body, with its header lines. -/
structure HeaderBlock where
  requestLine : Text
  headers : List HeaderLine
  body : Text
  requestLine_clean : ∀ c ∈ requestLine, c ∉ crlf
  names_nodup : (headers.map HeaderLine.name).Nodup

namespace HeaderBlock

def lines (m : HeaderBlock) : List Text := m.headers.map HeaderLine.line

def content (m : HeaderBlock) : Text :=
  m.requestLine ++ (precededLines m.lines ++ (crlf ++ crlf ++ m.body))

/-- The stage of the headers ends, and each header of the list is found and no other. -/
def EachFound (δ : Type) (m : HeaderBlock) : Prop :=
  ∃ params, Returns (fun turns => deserializeHeaderParams turns m.content) params ∧
    ∀ request : HttpRequest δ, request.headerParams = params →
      (∀ h ∈ m.headers, request.getHeaderParam h.name = h.value) ∧
        ∀ name ∉ m.headers.map HeaderLine.name, request.getHeaderParam name = paramNotFound

/-- The lines of the body that have one name and one value. -/
def bodyHeaders (m : HeaderBlock) : List (Text × Text) := (splitOn crlf m.body).filterMap headerOf

/-- No value has a colon with a blank, and without header lines the body has none to be found. -/
structure Undivided (m : HeaderBlock) : Prop where
  values : ∀ h ∈ m.headers, ¬ [':', ' '] <:+: h.value
  body : m.headers = [] → ∀ name value,
    m.bodyHeaders.lookup name = some value → value = paramNotFound

variable {δ : Type} {m : HeaderBlock} {name value : Text}

theorem isLine_of_mem (m : HeaderBlock) : ∀ l ∈ m.lines, IsLine l := by
  intro l hl
  obtain ⟨h, _, rfl⟩ := List.mem_map.mp hl
  exact h.isLine_line

theorem headersOf_content (hne : m.headers ≠ []) :
    headersOf m.content = m.lines.filterMap headerOf :=
  headersOf_lines m.requestLine_clean m.isLine_of_mem fun hnil => hne (List.map_eq_nil_iff.mp hnil)

theorem headersOf_content_nil (hnil : m.headers = []) : headersOf m.content = m.bodyHeaders := by
  have hlines : m.lines = [] := List.map_eq_nil_iff.mpr hnil
  unfold content
  rw [hlines]
  exact headersOf_noLines m.requestLine_clean

/-- A header that is found is one of the list with its value in one piece. -/
theorem mem_headersOf (hne : m.headers ≠ []) : (name, value) ∈ headersOf m.content ↔
    ∃ h ∈ m.headers, h.name = name ∧ h.value = value ∧ ¬ [':', ' '] <:+: h.value := by
  rw [headersOf_content hne, List.mem_filterMap]
  constructor
  · rintro ⟨l, hl, hfound⟩
    obtain ⟨h, hh, rfl⟩ := List.mem_map.mp hl
    by_cases hvalue : [':', ' '] <:+: h.value
    · rw [h.headerOf_line_eq_none hvalue] at hfound
      cases hfound
    · rw [h.headerOf_line hvalue] at hfound
      obtain ⟨rfl, rfl⟩ := Prod.mk.inj (Option.some.inj hfound)
      exact ⟨h, hh, rfl, rfl, hvalue⟩
  · rintro ⟨h, hh, rfl, rfl, hvalue⟩
    exact ⟨h.line, List.mem_map_of_mem hh, h.headerOf_line hvalue⟩

theorem eq_of_name_eq {h h' : HeaderLine} (hh : h ∈ m.headers) (hh' : h' ∈ m.headers)
    (hname : h.name = h'.name) : h = h' :=
  List.inj_on_of_nodup_map m.names_nodup hh hh' hname

/-- The stage of the headers ends for every such text. -/
theorem deserializeHeaderParams_content (hsize : m.content.length < 2147483648) :
    Returns (fun turns => deserializeHeaderParams turns m.content)
      (insertAll [] (headersOf m.content)) := by
  have hsection := length_headerSection_le m.content
  have hstart : headerStart m.content ≤ m.content.length := by
    unfold content
    rw [headerStart_lines m.requestLine_clean]
    simp [crlf]
    omega
  refine ⟨m.content.length + 1, fun turns hturns => ?_⟩
  exact deserializeHeaderParams_eq (by omega) (by omega) (by omega) hstart

theorem eachFound_iff_lookup (hsize : m.content.length < 2147483648) :
    m.EachFound δ ↔
      (∀ h ∈ m.headers, ((headersOf m.content).lookup h.name).getD paramNotFound = h.value) ∧
        ∀ name ∉ m.headers.map HeaderLine.name,
          ((headersOf m.content).lookup name).getD paramNotFound = paramNotFound := by
  have hreturns := deserializeHeaderParams_content hsize
  constructor
  · rintro ⟨params, hparams, hfound⟩
    obtain rfl := hreturns.unique hparams
    let request : HttpRequest δ := ⟨.get, [], [], [], insertAll [] (headersOf m.content), [], .null⟩
    have hget : ∀ name, request.getHeaderParam name =
        ((headersOf m.content).lookup name).getD paramNotFound := getHeaderParam_eq rfl
    have hrequest := hfound request rfl
    simpa only [hget] using hrequest
  · intro hfound
    refine ⟨_, hreturns, fun request hparams => ?_⟩
    simpa only [getHeaderParam_eq hparams] using hfound

theorem headersOf_of_values (hne : m.headers ≠ [])
    (hvalues : ∀ h ∈ m.headers, ¬ [':', ' '] <:+: h.value) :
    headersOf m.content = m.headers.map HeaderLine.entry := by
  rw [headersOf_content hne, lines, List.filterMap_map, ← List.filterMap_eq_map]
  exact List.filterMap_congr fun h hh => h.headerOf_line (hvalues h hh)

theorem found_of_values (hne : m.headers ≠ [])
    (hvalues : ∀ h ∈ m.headers, ¬ [':', ' '] <:+: h.value) :
    (∀ h ∈ m.headers, ((headersOf m.content).lookup h.name).getD paramNotFound = h.value) ∧
      ∀ name ∉ m.headers.map HeaderLine.name,
        ((headersOf m.content).lookup name).getD paramNotFound = paramNotFound := by
  have hnames : (m.headers.map HeaderLine.entry).map Prod.fst = m.headers.map HeaderLine.name :=
    List.map_map ..
  have hnodup : ((m.headers.map HeaderLine.entry).map Prod.fst).Nodup := hnames ▸ m.names_nodup
  rw [headersOf_of_values hne hvalues]
  constructor
  · intro h hh
    have hmem : (h.name, h.value) ∈ m.headers.map HeaderLine.entry := List.mem_map_of_mem hh
    rw [(mem_iff_lookup hnodup).mp hmem, Option.getD_some]
  · intro name hname
    have hnone : (m.headers.map HeaderLine.entry).lookup name = none := by
      cases hlookup : (m.headers.map HeaderLine.entry).lookup name with
      | none => rfl
      | some value =>
        have hmem := (mem_iff_lookup hnodup).mpr hlookup
        exact absurd (hnames ▸ List.mem_map_of_mem (f := Prod.fst) hmem) hname
    rw [hnone, Option.getD_none]

theorem colon_notMem_paramNotFound : ':' ∉ paramNotFound := by decide

/-- A header whose value is divided is not found. -/
theorem not_infix_of_found (hne : m.headers ≠ []) {h : HeaderLine} (hh : h ∈ m.headers)
    (hfound : ((headersOf m.content).lookup h.name).getD paramNotFound = h.value) :
    ¬ [':', ' '] <:+: h.value := by
  intro hinside
  cases hlookup : (headersOf m.content).lookup h.name with
  | none =>
    rw [hlookup, Option.getD_none] at hfound
    rw [← hfound] at hinside
    exact colon_notMem_paramNotFound (hinside.subset (List.mem_cons_self ..))
  | some value =>
    obtain ⟨front, back, heq, _⟩ := List.lookup_eq_some_iff.mp hlookup
    have hmem : (h.name, value) ∈ headersOf m.content := by simp [heq]
    obtain ⟨h', hh', hname, _, hvalue⟩ := (mem_headersOf hne).mp hmem
    rw [eq_of_name_eq hh' hh hname] at hvalue
    exact hvalue hinside

/-- Every header is found exactly when no value is divided and, without headers, the body has no
line that is taken for one. -/
theorem eachFound_iff_undivided (m : HeaderBlock) (hsize : m.content.length < 2147483648) :
    m.EachFound δ ↔ m.Undivided := by
  rw [eachFound_iff_lookup hsize]
  by_cases hne : m.headers = []
  · rw [headersOf_content_nil hne]
    constructor
    · rintro ⟨_, hothers⟩
      refine ⟨fun h hh => absurd (hne ▸ hh) List.not_mem_nil, fun _ name value hlookup => ?_⟩
      have hname := hothers name (by rw [hne]; exact List.not_mem_nil)
      rwa [hlookup, Option.getD_some] at hname
    · intro hundivided
      refine ⟨fun h hh => absurd (hne ▸ hh) List.not_mem_nil, fun name _ => ?_⟩
      cases hlookup : m.bodyHeaders.lookup name with
      | none => rfl
      | some value => exact hundivided.body hne name value hlookup
  · constructor
    · rintro ⟨hlisted, _⟩
      exact ⟨fun h hh => not_infix_of_found hne hh (hlisted h hh), fun hnil => absurd hnil hne⟩
    · exact fun hundivided => found_of_values hne hundivided.values

/-- The value of `T` is divided as the line is. -/
def dividedLine : HeaderLine where
  name := ['T']
  value := ['a', ':', ' ', 'b']
  name_clean := by simp
  name_crlf := by decide
  value_clean := by simp

def wholeLine : HeaderLine where
  name := ['T']
  value := ['a', ':', 'b']
  name_clean := dividedLine.name_clean
  name_crlf := dividedLine.name_crlf
  value_clean := by simp

def oneLine (h : HeaderLine) : HeaderBlock where
  requestLine := ['G', 'E', 'T', ' ', '/']
  headers := [h]
  body := []
  requestLine_clean := by simp [crlf]
  names_nodup := List.nodup_singleton _

theorem eachFound_iff_undivided_whole : (oneLine wholeLine).EachFound Unit := by
  refine (eachFound_iff_undivided (oneLine wholeLine) ?_).mpr ⟨?_, ?_⟩
  · decide
  · intro h hh
    obtain rfl := List.mem_singleton.mp hh
    decide
  · exact fun hnil => absurd hnil (List.cons_ne_nil _ _)

/-- A title with a colon and a blank in it is not found. -/
theorem not_eachFound_divided : ¬ (oneLine dividedLine).EachFound Unit := by
  intro hfound
  have hlisted := ((eachFound_iff_lookup (by decide)).mp hfound).1 dividedLine
    (List.mem_singleton_self _)
  exact not_infix_of_found (List.cons_ne_nil _ _) (List.mem_singleton_self _) hlisted (by decide)

end HeaderBlock

end OrderBookServer
