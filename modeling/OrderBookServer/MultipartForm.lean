import OrderBookServer.BodyMembers
import OrderBookServer.FormTurns
import OrderBookServer.SentRequest

/-!
Forms as a client sends them, and what the loop over form data stores of one. A turn stores the
name of its field and the first line of its value, over what the reader of JSON found in the body.
-/
namespace OrderBookServer

open StdString Occurrences HttpRequest

structure FormField where
  name : Text
  value : Text
  name_quote : '"' ∉ name
  name_line : ¬ crlf <:+: name

/-- What is in front of the first end of a line. -/
def firstLine (value : Text) : Text :=
  match indexOf crlf value with
  | some i => value.take i
  | none => value

/-- The line between two fields, without its end. -/
def boundaryLine (boundary : Text) : Text := ['-', '-'] ++ boundary

structure Form where
  boundary : Text
  fields : List FormField
  boundary_clean : ∀ c ∈ boundary, c ≠ '"' ∧ c ≠ '\r' ∧ c ≠ '\n'
  boundary_key : ¬ keyFormat <:+: boundary
  fields_ne : fields ≠ []
  names : (fields.map FormField.name).Nodup
  values : ∀ f ∈ fields, ¬ boundaryLine boundary <:+: f.value ∧ ¬ keyFormat <:+: f.value

namespace FormField

def entry (f : FormField) : Text × Text := (f.name, f.value)

/-- What a turn stores of the field. -/
def stored (f : FormField) : Text × Text := (f.name, firstLine f.value)

/-- The field behind its boundary. -/
def text (f : FormField) : Text :=
  keyFormat ++ (['"'] ++ (f.name ++ (['"'] ++ (crlf ++ crlf ++ (f.value ++ crlf)))))

end FormField

namespace Form

def frame (boundary : Text) : Text := boundaryLine boundary ++ crlf

def closing (boundary : Text) : Text := boundaryLine boundary ++ (['-', '-'] ++ crlf)

def encodeFields (boundary : Text) (fields : List FormField) : Text :=
  fields.flatMap fun f => frame boundary ++ f.text

def encode (form : Form) : Text :=
  encodeFields form.boundary form.fields ++ closing form.boundary

end Form

namespace HttpRequest

section Lines

variable {value rest : Text}

theorem firstLine_isPrefix (value : Text) : firstLine value <+: value := by
  unfold firstLine
  split
  · exact List.take_prefix _ value
  · exact List.prefix_refl value

theorem firstLine_eq_iff : firstLine value = value ↔ ¬ crlf <:+: value := by
  rw [← indexOf_eq_none_iff_notInfix]
  unfold firstLine
  split
  · rename_i i hi
    have hend := add_length_le_of_indexOf hi
    have htwo : crlf.length = 2 := rfl
    rw [hi, List.take_eq_self_iff]
    constructor
    · intro hle
      omega
    · intro hnone
      cases hnone
  · rename_i hnone
    exact iff_of_true rfl hnone

/-- No end of a line begins in a value without one. -/
theorem skips_crlf (hnone : ¬ crlf <:+: value) : Skips crlf value (crlf ++ rest) := by
  intro j hj hat
  rw [List.drop_append_of_le_length hj.le] at hat
  cases hdrop : value.drop j with
  | nil =>
    rw [List.drop_eq_nil_iff] at hdrop
    omega
  | cons c tail =>
    rw [hdrop, crlf, List.cons_append, List.cons_prefix_cons] at hat
    cases tail with
    | nil => exact absurd (List.cons_prefix_cons.mp hat.2).1 (by decide)
    | cons d tail =>
      rw [List.cons_append, List.cons_prefix_cons] at hat
      apply hnone
      apply List.IsInfix.trans _ (List.drop_suffix j value).isInfix
      rw [hdrop, ← hat.1, ← hat.2.1]
      exact (List.prefix_append crlf tail).isInfix

theorem indexOf_crlf (value rest : Text) :
    indexOf crlf (value ++ (crlf ++ rest)) = some (firstLine value).length := by
  unfold firstLine
  split
  · rename_i i hi
    have hend := add_length_le_of_indexOf hi
    rw [indexOf_append_of_some hi, List.length_take_of_le (by omega)]
  · rename_i hnone
    rw [indexOf_eq_none_iff_notInfix] at hnone
    exact indexOf_of_skips_self (skips_crlf hnone)

end Lines

section Boundaries

variable {boundary : Text} {f : FormField} {fields : List FormField} {rest : Text}

theorem exists_keyFormat : ∃ words, keyFormat = 'C' :: words := ⟨_, rfl⟩

/-- The key behind a boundary is the first one from the boundary on. -/
theorem indexOf_key (hkey : ¬ keyFormat <:+: boundary) (rest : Text) :
    indexOf keyFormat (Form.frame boundary ++ (keyFormat ++ rest)) =
      some (Form.frame boundary).length := by
  obtain ⟨words, hwords⟩ := exists_keyFormat
  have hcr : '\r' ∉ keyFormat := by decide
  apply indexOf_of_skips_self
  unfold Form.frame boundaryLine
  rw [List.append_assoc]
  apply Skips.append
  · rw [hwords]
    exact skips_of_notMem (by decide)
  · apply Skips.append
    · exact skips_of_notInfix hkey hcr
    · rw [hwords]
      exact skips_of_notMem (by decide)

/-- No boundary begins in the text of a field. -/
theorem skips_text (hclean : ∀ c ∈ boundary, c ≠ '"' ∧ c ≠ '\r' ∧ c ≠ '\n')
    (hvalue : ¬ boundaryLine boundary <:+: f.value) (rest : Text) :
    Skips (Form.frame boundary) f.text rest := by
  have hquote : '"' ∉ Form.frame boundary := by
    intro hmem
    simp only [Form.frame, boundaryLine, crlf, List.mem_append, List.mem_cons] at hmem
    rcases hmem with (hdashes | hmem) | hcrlf
    · simp at hdashes
    · exact (hclean _ hmem).1 rfl
    · simp at hcrlf
  have hcr : '\r' ∉ boundaryLine boundary := by
    intro hmem
    rcases List.mem_append.mp hmem with hdashes | hmem
    · simp at hdashes
    · exact (hclean _ hmem).2.1 rfl
  have hdash : ∀ {a b : Text}, '-' ∉ a → Skips (Form.frame boundary) a b := skips_of_notMem
  have hkey : ¬ Form.frame boundary <:+: keyFormat := by
    intro hinside
    have hmem : '\r' ∈ Form.frame boundary := by simp [Form.frame, crlf]
    exact absurd (hinside.subset hmem) (by decide)
  have hname : ¬ Form.frame boundary <:+: f.name := fun hinside =>
    f.name_line ((List.suffix_append (boundaryLine boundary) crlf).isInfix.trans hinside)
  unfold FormField.text
  apply Skips.append (skips_of_notInfix hkey hquote)
  apply Skips.append (hdash (by decide))
  apply Skips.append (skips_of_notInfix hname hquote)
  apply Skips.append (hdash (by decide))
  apply Skips.append (hdash (by decide))
  apply Skips.append _ (hdash (by decide))
  exact (skips_of_notInfix hvalue hcr).of_isPrefix (List.prefix_append _ crlf)

/-- No key is in the last boundary. -/
theorem not_key_in_closing (hkey : ¬ keyFormat <:+: boundary) :
    ¬ keyFormat <:+: Form.closing boundary := by
  obtain ⟨words, hwords⟩ := exists_keyFormat
  have hcr : '\r' ∉ keyFormat := by decide
  have hne : keyFormat ≠ [] := by simp [hwords]
  have hlast : keyFormat.getLast? ≠ some '-' := by decide
  have hdashes : ¬ keyFormat <:+: boundary ++ ['-'] ++ ['-'] :=
    notInfix_concat hne hlast (notInfix_concat hne hlast hkey)
  have hclosing : Form.closing boundary = ['-', '-'] ++ (boundary ++ ['-'] ++ ['-'] ++ crlf) := by
    simp [Form.closing, boundaryLine]
  apply notInfix_of_skips hne
  rw [hclosing]
  apply Skips.append
  · rw [hwords]
    exact skips_of_notMem (by decide)
  · apply Skips.append
    · exact skips_of_notInfix hdashes hcr
    · rw [hwords]
      exact skips_of_notMem (by decide)

end Boundaries

section Turn

variable {body frame name value rest : Text} {p : ℕ}

/-- A turn in whose searches each thing is found, and no position is lost in an `int`. -/
theorem keyAndValue_of_finds {k n l m : ℕ} {key : Text} (hle : k + 38 + n ≤ l)
    (hend : l + 4 + m < 2147483648) (hp : p < 9223372036854775808)
    (hkey : find body keyFormat p = k) (hquote : find body ['"'] (k + 38) = k + 38 + n)
    (hline : find body (crlf ++ crlf) (k + 38 + n) = l)
    (hvalue : find body crlf (l + 4) = l + 4 + m)
    (hkeyText : substr body (k + 38) n = .ok key)
    (hvalueText : substr body (l + 4) m = .ok value) :
    keyAndValue body p = .ok (some (key, value)) := by
  have hlength : keyFormat.length = 37 := rfl
  have hpos : -1 < (k : ℤ) := by omega
  have hkeyStart : (k : ℤ) + ((37 : ℕ) + 1) = ((k + 38 : ℕ) : ℤ) := by omega
  have hvalueStart : (l : ℤ) + 4 = ((l + 4 : ℕ) : ℤ) := by omega
  unfold keyAndValue
  simp only [sizeT_natCast (n := p) (by omega), hkey, toInt_natCast (n := k) (by omega),
    if_pos hpos, hlength, hkeyStart, toInt_natCast (n := k + 38) (by omega)]
  simp only [sizeT_natCast (n := k + 38) (by omega), hquote,
    toInt_natCast (n := k + 38 + n) (by omega), sizeT_natCast (n := k + 38 + n) (by omega), hline,
    sizeT_toInt_sub (m := k + 38) (n := n) (by omega), hkeyText, ok_bind]
  simp only [hvalueStart, toInt_natCast (n := l + 4) (by omega),
    sizeT_natCast (n := l + 4) (by omega), hvalue, toInt_natCast (n := l + 4 + m) (by omega),
    sizeT_toInt_sub (m := l + 4) (n := m) (by omega), hvalueText, ok_bind]
  rfl

/-- A turn from a boundary reads the field behind it. -/
theorem keyAndValue_at (hsize : body.length < 2147483648) (hp : p ≤ body.length)
    (hname : '"' ∉ name) (hfound : indexOf keyFormat (body.drop p) = some frame.length)
    (hdrop : body.drop p = frame ++ (keyFormat ++ (['"'] ++ (name ++ (['"'] ++
      (crlf ++ crlf ++ (value ++ (crlf ++ rest)))))))) :
    keyAndValue body p = .ok (some (name, firstLine value)) := by
  have hlength : keyFormat.length = 37 := rfl
  have htwo : crlf.length = 2 := rfl
  have hends : body.length = p + (frame.length + (37 + (1 + (name.length + (1 + (2 + 2 +
      (value.length + (2 + rest.length)))))))) := by
    have hall := congrArg List.length hdrop
    simp only [List.length_drop, List.length_append, List.length_singleton, hlength, htwo] at hall
    omega
  have hfirst : (firstLine value).length ≤ value.length := (firstLine_isPrefix value).length_le
  -- The text behind each position that the turn comes to.
  have hkey := drop_of_drop (drop_of_drop (drop_of_drop hdrop))
  rw [hlength, List.length_singleton] at hkey
  have hquote := drop_of_drop hkey
  have hline := drop_of_drop (drop_of_drop hquote)
  rw [List.length_append, htwo, List.length_singleton] at hline
  have htake : (value ++ (crlf ++ rest)).take (firstLine value).length = firstLine value := by
    rw [List.take_append_of_le_length hfirst]
    exact (List.prefix_iff_eq_take.mp (firstLine_isPrefix value)).symm
  refine keyAndValue_of_finds (k := p + frame.length) (n := name.length)
    (l := p + frame.length + 38 + name.length + 1) (m := (firstLine value).length)
    (by omega) (by omega) (by omega) ?key ?quote ?line ?value ?keyText ?valueText
  case key => exact find_of_some hp hfound
  case quote =>
    apply find_of_some (by omega)
    rw [hkey]
    exact indexOf_append_of_notMem hname
  case line =>
    apply find_of_some (by omega)
    rw [hquote]
    exact indexOf_of_skips_self (skips_of_notMem (by decide))
  case value =>
    apply find_of_some (by omega)
    rw [hline]
    exact indexOf_crlf value rest
  case keyText => rw [substr_of_le (by omega), hkey, List.take_left]
  case valueText => rw [substr_of_le (by omega), hline, htake]

end Turn

section Loop

variable {δ : Type} {body boundary : Text} {f : FormField} {fields : List FormField}
  {rest : Text} {p turns : ℕ} {start : ℤ} {json : Json δ}

theorem encodeFields_cons (boundary : Text) (f : FormField) (fields : List FormField) :
    Form.encodeFields boundary (f :: fields) =
      Form.frame boundary ++ (f.text ++ Form.encodeFields boundary fields) := by
  simp [Form.encodeFields]

theorem keyAndValue_field (hsize : body.length < 2147483648) (hp : p ≤ body.length)
    (hkey : ¬ keyFormat <:+: boundary)
    (hdrop : body.drop p = Form.frame boundary ++ (f.text ++ rest)) :
    keyAndValue body p = .ok (some f.stored) := by
  have htext : body.drop p = Form.frame boundary ++ (keyFormat ++ (['"'] ++ (f.name ++ (['"'] ++
      (crlf ++ crlf ++ (f.value ++ (crlf ++ rest))))))) := by
    rw [hdrop]
    simp only [FormField.text, List.append_assoc]
  apply keyAndValue_at hsize hp f.name_quote _ htext
  rw [htext]
  exact indexOf_key hkey _

/-- The loop is left where nothing but the last boundary is behind. -/
theorem leaves_closing (hsize : body.length < 2147483648) (hp : p ≤ body.length)
    (hkey : ¬ keyFormat <:+: boundary) {i : ℕ}
    (hdrop : body.drop p = (Form.closing boundary).drop i) : Leaves body p := by
  have hnone : indexOf keyFormat (body.drop p) = none := by
    rw [hdrop, indexOf_eq_none_iff_notInfix]
    intro hinside
    exact not_key_in_closing hkey (hinside.trans (List.drop_suffix i _).isInfix)
  unfold Leaves keyAndValue
  rw [sizeT_natCast (by omega), find_of_none hnone]
  rfl

theorem formDataFrom_of_leaves {frame : Text} (h : Leaves body start) (turns : ℕ)
    (json : Json δ) : formDataFrom body frame (turns + 1) start json = .ok json := by
  rw [formDataFrom_succ, h]
  rfl

/-- Where the loop goes on behind a text in which no boundary begins. -/
theorem nextStart_of_skips {frame text : Text} (hsize : body.length < 2147483648)
    (hp : p ≤ body.length) (hskips : Skips frame text rest)
    (hdrop : body.drop p = frame ++ (text ++ rest)) :
    nextStart body frame p = match indexOf frame rest with
      | some i => ((p + frame.length + text.length + i : ℕ) : ℤ)
      | none => -1 := by
  have hlength := congrArg List.length hdrop
  simp only [List.length_drop, List.length_append] at hlength
  have hfind := indexOf_of_skips hskips
  rw [← drop_of_drop hdrop] at hfind
  unfold nextStart HttpRequest.boundary
  rw [toInt_find_frame hsize hp (by omega)]
  unfold nextFrame
  rw [if_pos (by omega), hfind]
  cases indexOf frame rest with
  | none => rfl
  | some i =>
    have heq : p + frame.length + (i + text.length) = p + frame.length + text.length + i := by omega
    simp only [Option.map_some, heq]

/-- The loop stores the fields one after the other. -/
theorem formDataFrom_fields (hsize : body.length < 2147483648)
    (hclean : ∀ c ∈ boundary, c ≠ '"' ∧ c ≠ '\r' ∧ c ≠ '\n')
    (hkey : ¬ keyFormat <:+: boundary)
    (hvalues : ∀ f ∈ fields, ¬ boundaryLine boundary <:+: f.value) (hp : p ≤ body.length)
    (hdrop : body.drop p = Form.encodeFields boundary fields ++ Form.closing boundary)
    (hturns : fields.length < turns) :
    formDataFrom body (Form.frame boundary) turns p json =
      .ok (json.storeAll (fields.map FormField.stored)) := by
  induction fields generalizing p turns json with
  | nil =>
    obtain ⟨turns, rfl⟩ : ∃ n, turns = n + 1 := ⟨turns - 1, by omega⟩
    exact formDataFrom_of_leaves (leaves_closing hsize hp hkey (i := 0) hdrop) turns json
  | cons f fields ih =>
    obtain ⟨turns, rfl⟩ : ∃ n, turns = n + 1 := ⟨turns - 1, by omega⟩
    rw [List.length_cons] at hturns
    rw [encodeFields_cons, List.append_assoc, List.append_assoc] at hdrop
    have hlength := congrArg List.length hdrop
    simp only [List.length_drop, List.length_append] at hlength
    have hbehind := drop_of_drop (drop_of_drop hdrop)
    have hnext := nextStart_of_skips hsize hp
      (skips_text hclean (hvalues f (List.mem_cons_self ..)) _) hdrop
    rw [formDataFrom_succ, keyAndValue_field hsize hp hkey hdrop, ok_bind]
    show formDataFrom body (Form.frame boundary) turns _ _ = _
    cases fields with
    | nil =>
      -- The boundary may be found in the last line, which has no key.
      obtain ⟨turns, rfl⟩ : ∃ n, turns = n + 1 := ⟨turns - 1, by omega⟩
      apply formDataFrom_of_leaves
      rw [hnext]
      simp only [Form.encodeFields, List.flatMap_nil, List.nil_append] at hbehind ⊢
      cases hindex : indexOf (Form.frame boundary) (Form.closing boundary) with
      | none =>
        have hleaves : Leaves body (-1) := leaves_of_neg (by omega) (by decide) (by decide)
        exact hleaves
      | some i =>
        have hend := add_length_le_of_indexOf hindex
        simp only [Form.encodeFields, List.flatMap_nil, List.length_nil] at hlength
        apply leaves_closing hsize (by omega) hkey (i := i)
        rw [← List.drop_drop, hbehind]
    | cons g fields =>
      rw [hnext, encodeFields_cons, List.append_assoc, indexOf_self_append]
      exact ih (fun f hf => hvalues f (List.mem_cons_of_mem _ hf)) (by omega) hbehind (by omega)

/-- The form data of a form are its fields' names with the first lines of their values. -/
theorem formData_encode (form : Form) (hsize : form.encode.length < 2147483648) (json : Json δ)
    (hturns : form.fields.length < turns) :
    deserializeBodyFormData turns form.encode json =
      .ok (json.storeAll (form.fields.map FormField.stored)) := by
  obtain ⟨f, fields, hfields⟩ := List.exists_cons_of_ne_nil form.fields_ne
  have hencode : form.encode = Form.frame form.boundary ++ (keyFormat ++
      (['"'] ++ (f.name ++ (['"'] ++ (crlf ++ crlf ++ (f.value ++ crlf)))) ++
        (Form.encodeFields form.boundary fields ++ Form.closing form.boundary))) := by
    unfold Form.encode
    rw [hfields, encodeFields_cons]
    simp only [FormField.text, List.append_assoc]
  have hindex : indexOf keyFormat form.encode = some (Form.frame form.boundary).length := by
    rw [hencode]
    exact indexOf_key form.boundary_key _
  have htake : form.encode.take (Form.frame form.boundary).length = Form.frame form.boundary := by
    rw [hencode, List.take_left]
  rw [deserializeBodyFormData_eq hsize, hindex]
  simp only [htake]
  exact formDataFrom_fields (p := 0) hsize form.boundary_clean form.boundary_key
    (fun f hf => (form.values f hf).1) (Nat.zero_le _) rfl hturns

end Loop

end HttpRequest

namespace Form

section Decoding

variable {δ : Type} {form : Form} {beyond : ℕ → Char} {json : Json δ}

/-- The members that the form stands for. -/
def members (δ : Type) (form : Form) : List (Text × Json δ) :=
  (form.fields.map FormField.entry).map Json.entryOf

variable (δ) in
/-- A request with this method and content is constructed, and its body is read as an object with
exactly the form's members. -/
def Decodes [CharConv δ] (form : Form) (beyond : ℕ → Char) (method : RequestMethod)
    (content : Text) : Prop :=
  ∃ fuel, ∃ request : HttpRequest δ, ∃ members,
    Returns (fun turns => deserialize turns (readJson fuel beyond) method content) request ∧
      request.bodyJson = .object members ∧ members.Perm (form.members δ)

variable (δ) in
/-- The values are of one line, no name has a NUL, and the reader of JSON comes to an end on the
encoded form and leaves no member with a name that is not a field's. -/
structure Decodable [CharConv δ] (form : Form) (beyond : ℕ → Char) : Prop where
  lines : ∀ f ∈ form.fields, ¬ crlf <:+: f.value
  names : ∀ f ∈ form.fields, '\x00' ∉ f.name
  json : ∃ fuel, ∃ json : Json δ, readJson fuel beyond form.encode = .ok json ∧
    json.fields ⊆ form.fields.map FormField.name

theorem map_stored_fst (form : Form) :
    (form.fields.map FormField.stored).map Prod.fst = form.fields.map FormField.name := by
  rw [List.map_map]
  rfl

theorem stored_ne_nil (form : Form) : form.fields.map FormField.stored ≠ [] := fun hnil =>
  form.fields_ne (List.map_eq_nil_iff.mp hnil)

theorem members_fst (form : Form) :
    (form.members δ).map Prod.fst = form.fields.map FormField.name := by
  unfold members
  rw [List.map_map, List.map_map]
  rfl

/-- The members are what is stored and what has no name of the form. -/
theorem mem_storeAll_stored (hjson : json.Keyed) (hnames : ∀ f ∈ form.fields, '\x00' ∉ f.name)
    (e : Text × Json δ) :
    e ∈ (json.storeAll (form.fields.map FormField.stored)).members ↔
      e ∈ (form.fields.map FormField.stored).map Json.entryOf ∨
        e ∈ json.members ∧ e.1 ∉ (form.fields.map FormField.stored).map Prod.fst := by
  apply Json.mem_storeAll hjson
  · intro e he
    obtain ⟨f, hf, rfl⟩ := List.mem_map.mp he
    exact hnames f hf
  · rw [map_stored_fst]
    exact form.names

/-- What is stored is the form where nothing is cut off and nothing is left over. -/
theorem storeAll_perm (hjson : json.Keyed) (hlines : ∀ f ∈ form.fields, ¬ crlf <:+: f.value)
    (hnames : ∀ f ∈ form.fields, '\x00' ∉ f.name)
    (hleft : json.fields ⊆ form.fields.map FormField.name) :
    (json.storeAll (form.fields.map FormField.stored)).members.Perm (form.members δ) := by
  have hstored : form.fields.map FormField.stored = form.fields.map FormField.entry := by
    apply List.map_congr_left
    intro f hf
    unfold FormField.stored FormField.entry
    rw [firstLine_eq_iff.mpr (hlines f hf)]
  have hkeys := (hjson.storeAll (form.fields.map FormField.stored)).nodup
  rw [Json.fields_eq] at hkeys
  have hmembers : ((form.members δ).map Prod.fst).Nodup := by
    rw [members_fst]
    exact form.names
  rw [List.perm_ext_iff_of_nodup hkeys.of_map hmembers.of_map]
  intro e
  rw [mem_storeAll_stored hjson hnames, hstored]
  constructor
  · rintro (hentry | ⟨hold, hnew⟩)
    · exact hentry
    · rw [← hstored, map_stored_fst] at hnew
      have hfield : e.1 ∈ json.fields := by
        rw [Json.fields_eq]
        exact List.mem_map_of_mem hold
      exact absurd (hleft hfield) hnew
  · exact Or.inl

/-- Where what is stored is the form, nothing was cut off or left over. -/
theorem of_storeAll_perm (hjson : json.Keyed)
    (hperm : (json.storeAll (form.fields.map FormField.stored)).members.Perm (form.members δ)) :
    (∀ f ∈ form.fields, ¬ crlf <:+: f.value) ∧ (∀ f ∈ form.fields, '\x00' ∉ f.name) ∧
      json.fields ⊆ form.fields.map FormField.name := by
  have hstored := hjson.storeAll (form.fields.map FormField.stored)
  have hfields : (json.storeAll (form.fields.map FormField.stored)).fields.Perm
      (form.fields.map FormField.name) := by
    rw [Json.fields_eq, ← members_fst (δ := δ)]
    exact hperm.map Prod.fst
  have hnames : ∀ f ∈ form.fields, '\x00' ∉ f.name := fun f hf =>
    hstored.clean f.name (hfields.mem_iff.mpr (List.mem_map_of_mem hf))
  have hmem := mem_storeAll_stored hjson hnames
  refine ⟨fun f hf => ?_, hnames, fun key hkey => ?_⟩
  · -- The entry that is stored for a field is the entry of a field with its name.
    have hfound := hperm.mem_iff.mp ((hmem (Json.entryOf f.stored)).mpr
      (Or.inl (List.mem_map_of_mem (List.mem_map_of_mem hf))))
    obtain ⟨e, he, heq⟩ := List.mem_map.mp hfound
    obtain ⟨g, hg, rfl⟩ := List.mem_map.mp he
    simp only [Json.entryOf, FormField.entry, FormField.stored, Json.ofValue, Prod.mk.injEq,
      Json.value.injEq, JsonValue.string.injEq, and_true] at heq
    obtain ⟨hname, hvalue⟩ := heq
    obtain rfl := List.inj_on_of_nodup_map form.names hg hf hname
    exact firstLine_eq_iff.mp hvalue.symm
  · by_contra hnew
    rw [Json.fields_eq] at hkey
    obtain ⟨e, he, rfl⟩ := List.mem_map.mp hkey
    have hfound := hperm.mem_iff.mp ((hmem e).mpr (Or.inr ⟨he, by rwa [map_stored_fst]⟩))
    apply hnew
    rw [← members_fst (δ := δ)]
    exact List.mem_map_of_mem hfound

end Decoding

section Sent

variable {δ : Type} [CharConv δ] {form : Form} {beyond : ℕ → Char} {m : SentRequest}
  {method : RequestMethod} {fuel : ℕ} {request : HttpRequest δ}

omit [CharConv δ] in
theorem rawData_object (turns : ℕ) (body : Text) (members : List (Text × Json δ)) :
    deserializeBodyRawData turns body (.object members) = .ok (.object members) := rfl

/-- The body of a request with a form is what the loop stores over what the reader of JSON
leaves. -/
theorem deserializeBodyOf_form {json : Json δ} {turns : ℕ} (hsize : m.bytes.length < 2147483648)
    (hmethod : RequestMethod.requestMethodMap m.method = some method)
    (hpost : method.isPost = true) (hbody : m.body = form.encode)
    (hjson : readJson fuel beyond form.encode = .ok json) (hturns : form.fields.length < turns) :
    deserializeBodyOf turns (readJson fuel beyond) method m.bytes =
      .ok (form.encode, json.storeAll (form.fields.map FormField.stored)) := by
  have hshort : form.encode.length < 2147483648 := by
    have hle := length_bodyOf_le m.bytes
    rw [SentRequest.bodyOf_bytes, hbody] at hle
    omega
  rw [SentRequest.deserializeBodyOf_bytes hsize hmethod hpost, hbody, hjson, ok_bind,
    formData_encode form hshort json hturns, ok_bind,
    Json.storeAll_eq_object form.stored_ne_nil, rawData_object, ok_bind]

theorem deserialize_form_iff {res : Json δ} (hsize : m.bytes.length < 2147483648)
    (hmethod : RequestMethod.requestMethodMap m.method = some method)
    (hpost : method.isPost = true) (hbody : m.body = form.encode) :
    (∃ request, Returns (fun turns => deserialize turns (readJson fuel beyond) method m.bytes)
      request ∧ request.bodyJson = res) ↔
    ∃ json, readJson fuel beyond form.encode = .ok json ∧
      res = json.storeAll (form.fields.map FormField.stored) := by
  constructor
  · rintro ⟨request, ⟨n, hn⟩, rfl⟩
    have hread := body_of_deserialize (hn (max n (form.fields.length + 1)) (by omega))
    have hstages := hread
    rw [SentRequest.deserializeBodyOf_bytes hsize hmethod hpost, hbody] at hstages
    obtain ⟨json, hjson, _⟩ := bind_eq_ok hstages
    rw [deserializeBodyOf_form hsize hmethod hpost hbody hjson (by omega)] at hread
    exact ⟨json, hjson, (Prod.mk.inj (Except.ok.inj hread)).2.symm⟩
  · rintro ⟨json, hjson, rfl⟩
    have hreturns : Returns (fun turns => deserializeBodyOf turns (readJson fuel beyond) method
        m.bytes) (form.encode, json.storeAll (form.fields.map FormField.stored)) :=
      ⟨form.fields.length + 1, fun turns hturns =>
        deserializeBodyOf_form hsize hmethod hpost hbody hjson (by omega)⟩
    obtain ⟨request, hread, _, hres⟩ := SentRequest.deserialize_bytes hsize hmethod hreturns
    exact ⟨request, hread, hres⟩

theorem decodable_of_decodes (hsize : m.bytes.length < 2147483648)
    (hmethod : RequestMethod.requestMethodMap m.method = some method)
    (hpost : method.isPost = true) (hbody : m.body = form.encode)
    (h : form.Decodes δ beyond method m.bytes) : form.Decodable δ beyond := by
  obtain ⟨fuel, request, members, hread, hobject, hperm⟩ := h
  obtain ⟨json, hjson, hstored⟩ :=
    (deserialize_form_iff hsize hmethod hpost hbody).mp ⟨request, hread, hobject⟩
  have hmembers : (json.storeAll (form.fields.map FormField.stored)).members = members := by
    rw [← hstored]
    rfl
  obtain ⟨hlines, hnames, hleft⟩ := of_storeAll_perm (keyed_readJson hjson) (hmembers ▸ hperm)
  exact ⟨hlines, hnames, fuel, json, hjson, hleft⟩

/-- A form that has arrived whole in a request is read as its fields exactly where each value is of
one line, no name has a NUL and the reader of JSON comes to an end with no name but theirs. -/
theorem decodes_iff_decodable (hsize : m.bytes.length < 2147483648)
    (hmethod : RequestMethod.requestMethodMap m.method = some method)
    (hpost : method.isPost = true) (hbody : m.body = form.encode) :
    form.Decodes δ beyond method m.bytes ↔ form.Decodable δ beyond := by
  refine ⟨decodable_of_decodes hsize hmethod hpost hbody, ?_⟩
  rintro ⟨hlines, hnames, fuel, json, hjson, hleft⟩
  obtain ⟨request, hread, hres⟩ :=
    (deserialize_form_iff hsize hmethod hpost hbody).mpr ⟨json, hjson, rfl⟩
  rw [Json.storeAll_eq_object form.stored_ne_nil] at hres
  exact ⟨fuel, request, _, hread, hres, storeAll_perm (keyed_readJson hjson) hlines hnames hleft⟩

/-- Without a bracket in the form the reader of JSON leaves no member. -/
theorem decodable_of_noBracket (hlines : ∀ f ∈ form.fields, ¬ crlf <:+: f.value)
    (hnames : ∀ f ∈ form.fields, '\x00' ∉ f.name)
    (hbrace : '{' ∉ form.encode) (hsquare : '[' ∉ form.encode) : form.Decodable δ beyond := by
  refine ⟨hlines, hnames, 2, .ofValue .null, readJson_of_noBracket hbrace hsquare 0, ?_⟩
  exact List.nil_subset _

end Sent

section OneField

/-- A form with one field. -/
def oneField (value : Text) (hboundary : ¬ boundaryLine ['b'] <:+: value)
    (hkey : ¬ keyFormat <:+: value) : Form where
  boundary := ['b']
  fields := [⟨['a'], value, by decide, by decide⟩]
  boundary_clean := by simp
  boundary_key := by decide
  fields_ne := List.cons_ne_nil _ _
  names := List.nodup_singleton _
  values f hf := by
    obtain rfl := List.mem_singleton.mp hf
    exact ⟨hboundary, hkey⟩

def plainForm : Form := oneField ['a', 'b', 'c', 'd'] (by decide) (by decide)

theorem decodes_iff_decodable_plain :
    plainForm.Decodes Empty noneBeyond .post (SentRequest.post plainForm.encode).bytes := by
  refine (decodes_iff_decodable (m := .post plainForm.encode) (by decide) rfl rfl rfl).mpr
    (decodable_of_noBracket ?_ ?_ (by decide) (by decide))
  · intro f hf
    obtain rfl := List.mem_singleton.mp hf
    decide
  · intro f hf
    obtain rfl := List.mem_singleton.mp hf
    decide

/-- A value of two lines, the first of which is kept. -/
def twoLineForm : Form := oneField ['a', '\r', '\n', 'b'] (by decide) (by decide)

theorem not_decodes_twoLines :
    ¬ twoLineForm.Decodes Empty noneBeyond .post (SentRequest.post twoLineForm.encode).bytes := by
  intro h
  have hdecodable := decodable_of_decodes (m := .post twoLineForm.encode) (by decide) rfl rfl rfl h
  exact hdecodable.lines _ (List.mem_singleton_self _) (by decide)

end OneField

end Form

end OrderBookServer
