import OrderBookServer.JsonText

/-!
Rules for the nodes of a tree: which scalars it holds, which characters its strings and
keys contain, whether its containers are empty. A tree that denotes the same as one
that meets the last two meets them too.
-/
namespace OrderBookServer

namespace Json

variable {δ : Type}

/-- What is asked of each node of a tree. -/
structure NodeRule (δ : Type) where
  value : JsonValue δ → Bool → Prop
  array : List (Json δ) → Prop
  object : List (Text × Json δ) → Prop

/-- Every node of a tree meets a rule. -/
inductive Every (r : NodeRule δ) : Json δ → Prop
  | null : Every r .null
  | value {v : JsonValue δ} {isStringFormat : Bool} (h : r.value v isStringFormat) :
    Every r (.value v isStringFormat)
  | array {items : List (Json δ)} (h : r.array items) (hitems : ∀ item ∈ items, Every r item) :
    Every r (.array items)
  | object {members : List (Text × Json δ)} (h : r.object members)
    (hmembers : ∀ m ∈ members, Every r m.2) : Every r (.object members)

/-- Scalars that the writer and the reader both know, strings with their quotes, and
distinct keys. -/
def writable : NodeRule δ where
  value
    | .uint64 _, _ => False
    | .double _, _ => False
    | .string _, isStringFormat => isStringFormat = true
    | _, _ => True
  array _ := True
  object members := (members.map Prod.fst).Nodup

/-- No quote in a string or a key, and no NUL in a key. -/
def quoteFree : NodeRule δ where
  value v _ := ∀ s, v = .string s → '"' ∉ s
  array _ := True
  object members := ∀ m ∈ members, '"' ∉ m.1 ∧ '\x00' ∉ m.1

def nonEmpty : NodeRule δ where
  value _ _ := True
  array items := items ≠ []
  object members := members ≠ []

variable {r r' : NodeRule δ}

theorem Every.mono (hvalue : ∀ v f, r.value v f → r'.value v f)
    (harray : ∀ items, r.array items → r'.array items)
    (hobject : ∀ members, r.object members → r'.object members) {json : Json δ}
    (h : json.Every r) : json.Every r' := by
  induction h with
  | null => exact .null
  | value h => exact .value (hvalue _ _ h)
  | array h _ ih => exact .array (harray _ h) ih
  | object h _ ih => exact .object (hobject _ h) ih

theorem printableItems_of_forall {items : List (Json δ)} (h : ∀ item ∈ items, item.Printable) :
    PrintableItems items := by
  induction items with
  | nil => trivial
  | cons item items ih =>
    exact ⟨h item (List.mem_cons_self ..), ih fun x hx => h x (List.mem_cons_of_mem _ hx)⟩

theorem printableMembers_of_forall {members : List (Text × Json δ)}
    (h : ∀ m ∈ members, ('"' ∉ m.1 ∧ '\x00' ∉ m.1) ∧ m.2.Printable) :
    PrintableMembers members := by
  induction members with
  | nil => trivial
  | cons m members ih =>
    obtain ⟨hkey, hitem⟩ := h m (List.mem_cons_self ..)
    exact ⟨hkey, hitem, ih fun x hx => h x (List.mem_cons_of_mem _ hx)⟩

/-- A tree that meets the three rules is one of the round trip. -/
theorem printable_of_every {json : Json δ} (hw : json.Every writable) (hq : json.Every quoteFree)
    (hn : json.Every nonEmpty) : json.Printable := by
  induction hw with
  | null => trivial
  | @value v f hf =>
    cases hq with
    | value hquote =>
      cases v with
      | string s => exact ⟨hf, hquote s rfl⟩
      | uint64 x => exact hf
      | double x => exact hf
      | null => trivial
      | bool b => trivial
      | int64 x => trivial
  | array _ _ ih =>
    cases hq with
    | array _ hq =>
      cases hn with
      | array hne hn =>
        exact ⟨hne, printableItems_of_forall fun x hx => ih x hx (hq x hx) (hn x hx)⟩
  | object hkeys _ ih =>
    cases hq with
    | object hfree hq =>
      cases hn with
      | object hne hn =>
        exact ⟨hne, hkeys, printableMembers_of_forall fun m hm =>
          ⟨hfree m hm, ih m hm (hq m hm) (hn m hm)⟩⟩

theorem denoteItems_eq_map (items : List (Json δ)) : denoteItems items = items.map denote := by
  induction items with
  | nil => rfl
  | cons item items ih => rw [denoteItems, ih, List.map_cons]

/-- A key that an object maps to a tree is the key of a member with that tree. -/
theorem mem_of_denoteMembers {members : List (Text × Json δ)} {k : Text} {t : Tree δ}
    (h : denoteMembers members k = some t) : ∃ item, (k, item) ∈ members ∧ item.denote = t := by
  induction members with
  | nil => cases h
  | cons m members ih =>
    obtain ⟨key, item⟩ := m
    rw [denoteMembers] at h
    by_cases heq : key = k
    · rw [if_pos heq] at h
      rw [← heq]
      exact ⟨item, List.mem_cons_self .., Option.some.inj h⟩
    · rw [if_neg heq] at h
      obtain ⟨item', hmem, hdenote⟩ := ih h
      exact ⟨item', List.mem_cons_of_mem _ hmem, hdenote⟩

theorem exists_denoteMembers {members : List (Text × Json δ)} {m : Text × Json δ}
    (hm : m ∈ members) : ∃ t, denoteMembers members m.1 = some t := by
  induction members with
  | nil => cases hm
  | cons first members ih =>
    obtain ⟨key, item⟩ := first
    rw [denoteMembers]
    by_cases heq : key = m.1
    · exact ⟨item.denote, if_pos heq⟩
    · rw [if_neg heq]
      obtain rfl | htail := List.mem_cons.mp hm
      · exact absurd rfl heq
      · exact ih htail

/-- A rule about keys, strings and lengths is one about what a tree denotes. -/
theorem every_of_denote {tree other : Json δ} (htree : tree.Every writable)
    (hother : other.Every quoteFree) (hshape : other.Every nonEmpty)
    (hsame : other.denote = tree.denote) : tree.Every quoteFree ∧ tree.Every nonEmpty := by
  induction htree generalizing other with
  | null => exact ⟨.null, .null⟩
  | @value v f _ =>
    refine ⟨.value fun s hs => ?_, .value trivial⟩
    subst hs
    cases hother with
    | null => cases hsame
    | value hfree =>
      cases hsame
      exact hfree s rfl
    | array _ _ => cases hsame
    | object _ _ => cases hsame
  | @array items _ _ ih =>
    cases hother with
    | null => cases hsame
    | value _ => cases hsame
    | object _ _ => cases hsame
    | @array items' _ hfree =>
      cases hshape with
      | array hne hitems =>
        simp only [denote, denoteItems_eq_map, Tree.array.injEq] at hsame
        have hevery : ∀ item ∈ items, item.Every quoteFree ∧ item.Every nonEmpty := by
          intro item hitem
          have hmem : item.denote ∈ items'.map denote := by
            rw [hsame]
            exact List.mem_map_of_mem hitem
          obtain ⟨item', hitem', hdenote⟩ := List.mem_map.mp hmem
          exact ih item hitem (hfree item' hitem') (hitems item' hitem') hdenote
        refine ⟨.array trivial fun item hitem => (hevery item hitem).1,
          .array (fun hnil => hne ?_) fun item hitem => (hevery item hitem).2⟩
        rw [hnil] at hsame
        exact List.map_eq_nil_iff.mp hsame
  | @object members hkeys _ ih =>
    cases hother with
    | null => cases hsame
    | value _ => cases hsame
    | array _ _ => cases hsame
    | @object members' hfree hitems' =>
      cases hshape with
      | object hne hitems =>
        simp only [denote, Tree.object.injEq] at hsame
        have hevery : ∀ m ∈ members, ('"' ∉ m.1 ∧ '\x00' ∉ m.1) ∧
            m.2.Every quoteFree ∧ m.2.Every nonEmpty := by
          intro m hm
          obtain ⟨key, item⟩ := m
          have hmap := (denoteMembers_eq_some_iff hkeys).mpr ⟨item, hm, rfl⟩
          rw [← hsame] at hmap
          obtain ⟨item', hmem, hdenote⟩ := mem_of_denoteMembers hmap
          exact ⟨hfree (key, item') hmem,
            ih _ hm (hitems' (key, item') hmem) (hitems (key, item') hmem) hdenote⟩
        refine ⟨.object (fun m hm => (hevery m hm).1) fun m hm => (hevery m hm).2.1,
          .object (fun hnil => ?_) fun m hm => (hevery m hm).2.2⟩
        obtain ⟨m', hm'⟩ := List.exists_mem_of_ne_nil _ hne
        obtain ⟨t, hmap⟩ := exists_denoteMembers hm'
        rw [hsame, hnil] at hmap
        cases hmap

end Json

end OrderBookServer
