import Mathlib.Data.List.Nodup
import OrderBookServer.Json

/-!
What a handle denotes, and the texts of a tree. A null handle and a null value denote
the same, and the members of an object are a map from keys to trees. A text of a tree
is what the writer emits for it, with whitespace between the tokens and with the
members of each object in any order.
-/
namespace OrderBookServer

/-- A JSON document without its representation. -/
inductive Tree (δ : Type)
  | scalar (v : JsonValue δ)
  | array (items : List (Tree δ))
  | object (members : Text → Option (Tree δ))

namespace Json

variable {δ : Type}

mutual

def denote : Json δ → Tree δ
  | .null => .scalar .null
  | .value v _ => .scalar v
  | .array items => .array (denoteItems items)
  | .object members => .object (denoteMembers members)

def denoteItems : List (Json δ) → List (Tree δ)
  | [] => []
  | item :: items => denote item :: denoteItems items

def denoteMembers : List (Text × Json δ) → Text → Option (Tree δ)
  | [], _ => none
  | (key, item) :: members, k => if key = k then some (denote item) else denoteMembers members k

end

def IsContainer : Json δ → Prop
  | .array _ => True
  | .object _ => True
  | _ => False

/-- A scalar whose text the reader can read: no unsigned or floating-point number, and no
string that is written without quotes or contains one. -/
def PrintableValue (isStringFormat : Bool) : JsonValue δ → Prop
  | .uint64 _ => False
  | .double _ => False
  | .string s => isStringFormat = true ∧ '"' ∉ s
  | _ => True

mutual

/-- A tree with no empty container, whose keys and strings contain no quote and whose keys
contain no NUL; the keys of an object are distinct. -/
def Printable : Json δ → Prop
  | .null => True
  | .value v isStringFormat => PrintableValue isStringFormat v
  | .array items => items ≠ [] ∧ PrintableItems items
  | .object members => members ≠ [] ∧ (members.map Prod.fst).Nodup ∧ PrintableMembers members

def PrintableItems : List (Json δ) → Prop
  | [] => True
  | item :: items => Printable item ∧ PrintableItems items

def PrintableMembers : List (Text × Json δ) → Prop
  | [] => True
  | (key, item) :: members => ('"' ∉ key ∧ '\x00' ∉ key) ∧ Printable item ∧ PrintableMembers members

end

/-- The members of an object are a map. -/
theorem denoteMembers_eq_some_iff {members : List (Text × Json δ)}
    (hkeys : (members.map Prod.fst).Nodup) {k : Text} {t : Tree δ} :
    denoteMembers members k = some t ↔ ∃ item, (k, item) ∈ members ∧ item.denote = t := by
  induction members with
  | nil => simp [denoteMembers]
  | cons m members ih =>
    obtain ⟨key, item⟩ := m
    obtain ⟨hfresh, hrest⟩ := List.nodup_cons.mp hkeys
    rw [denoteMembers]
    split
    · rename_i heq
      rw [← heq, Option.some.injEq]
      constructor
      · intro hitem
        exact ⟨item, List.mem_cons_self .., hitem⟩
      · intro hmem
        obtain ⟨item', hitem', hdenote⟩ := hmem
        obtain hsame | htail := List.mem_cons.mp hitem'
        · rw [← hdenote, (Prod.mk.inj hsame).2]
        · exact absurd (List.mem_map.mpr ⟨_, htail, rfl⟩) hfresh
    · rename_i hne
      rw [ih hrest]
      constructor
      · intro hmem
        obtain ⟨item', hitem', hdenote⟩ := hmem
        exact ⟨item', List.mem_cons_of_mem _ hitem', hdenote⟩
      · intro hmem
        obtain ⟨item', hitem', hdenote⟩ := hmem
        obtain hsame | htail := List.mem_cons.mp hitem'
        · exact absurd (Prod.mk.inj hsame).1.symm hne
        · exact ⟨item', htail, hdenote⟩

/-- The order of the members does not matter. -/
theorem denote_object_perm {members members' : List (Text × Json δ)} (h : members.Perm members')
    (hkeys : (members.map Prod.fst).Nodup) :
    (Json.object members).denote = (Json.object members').denote := by
  have hkeys' : (members'.map Prod.fst).Nodup := (h.map Prod.fst).nodup_iff.mp hkeys
  rw [denote, denote, Tree.object.injEq]
  funext k
  refine Option.ext fun t => ?_
  rw [denoteMembers_eq_some_iff hkeys, denoteMembers_eq_some_iff hkeys']
  simp only [h.mem_iff]

section Texts

variable [CharConv δ]

mutual

/-- The tokens of the written text; a string is one token with its quotes. -/
def tokens : Json δ → List Text
  | .null => [['n', 'u', 'l', 'l']]
  | .value v isStringFormat => [(v.writeStringValue isStringFormat).flatten]
  | .array items => ['['] :: (tokensItems true items ++ [[']']])
  | .object members => ['{'] :: (tokensMembers true members ++ [['}']])

def tokensItems (first : Bool) : List (Json δ) → List Text
  | [] => []
  | item :: items => (if first then [] else [[',']]) ++ (tokens item ++ tokensItems false items)

def tokensMembers (first : Bool) : List (Text × Json δ) → List Text
  | [] => []
  | (key, item) :: members => (if first then [] else [[',']]) ++
    (('"' :: key ++ ['"']) :: [':'] :: (tokens item ++ tokensMembers false members))

end

def isWhitespace (c : Char) : Bool := c == ' ' || c == '\t' || c == '\n' || c == '\r'

def Blank (gap : Text) : Prop := ∀ c ∈ gap, isWhitespace c = true

/-- The tokens in order, with whitespace before each of them and behind the last one. -/
def Spread : List Text → Text → Prop
  | [], text => Blank text
  | token :: rest, text => ∃ gap more, text = gap ++ (token ++ more) ∧ Blank gap ∧ Spread rest more

/-- A text of the tree: its tokens in a possible order of the members, spread out. -/
def IsTextOf (tree : Json δ) (text : Text) : Prop :=
  ∃ order : Json δ, order.Printable ∧ order.denote = tree.denote ∧ Spread order.tokens text

mutual

theorem flatten_tokens : ∀ json : Json δ, json.tokens.flatten = json.writeStringValue.flatten
  | .null => rfl
  | .value v isStringFormat => by simp only [tokens, writeStringValue, List.flatten_cons,
      List.flatten_nil, List.append_nil]
  | .array items => by
    have hitems := flatten_tokensItems true items
    simp only [tokens, writeStringValue, List.flatten_cons, List.flatten_append, hitems,
      List.flatten_nil, List.append_nil, List.append_assoc]
  | .object members => by
    have hmembers := flatten_tokensMembers true members
    simp only [tokens, writeStringValue, List.flatten_cons, List.flatten_append, hmembers,
      List.flatten_nil, List.append_nil, List.append_assoc]

theorem flatten_tokensItems (first : Bool) : ∀ items : List (Json δ),
    (tokensItems first items).flatten = (writeItems first items).flatten
  | [] => rfl
  | item :: items => by
    have hitem := flatten_tokens item
    have hitems := flatten_tokensItems false items
    cases first with
    | true => simp only [tokensItems, writeItems, if_true, List.flatten_append, hitem, hitems,
        List.append_assoc]
    | false => simp only [tokensItems, writeItems, Bool.false_eq_true, if_false,
        List.flatten_append, hitem, hitems, List.append_assoc]

theorem flatten_tokensMembers (first : Bool) : ∀ members : List (Text × Json δ),
    (tokensMembers first members).flatten = (writeMembers first members).flatten
  | [] => rfl
  | (key, item) :: members => by
    have hitem := flatten_tokens item
    have hmembers := flatten_tokensMembers false members
    cases first with
    | true => simp [tokensMembers, writeMembers, hitem, hmembers]
    | false => simp [tokensMembers, writeMembers, hitem, hmembers]

end

theorem spread_flatten (ts : List Text) : Spread ts ts.flatten := by
  induction ts with
  | nil => exact fun c hc => absurd hc List.not_mem_nil
  | cons token ts ih =>
    exact ⟨[], ts.flatten, rfl, fun c hc => absurd hc List.not_mem_nil, ih⟩

theorem length_le_of_spread {ts : List Text} {text : Text} (hspread : Spread ts text)
    (hne : ∀ t ∈ ts, t ≠ []) : ts.length ≤ text.length := by
  induction ts generalizing text with
  | nil => exact Nat.zero_le _
  | cons token ts ih =>
    obtain ⟨gap, more, rfl, _, hmore⟩ := hspread
    have htail := ih hmore fun t ht => hne t (List.mem_cons_of_mem _ ht)
    have hpos := List.length_pos_iff.mpr (hne token (List.mem_cons_self ..))
    simp only [List.length_append, List.length_cons]
    omega

/-- What the writer emits is a text of the tree, and so it is for any order of the members. -/
theorem isTextOf_getStringValue {tree order : Json δ} (horder : order.Printable)
    (hsame : order.denote = tree.denote) : tree.IsTextOf order.getStringValue := by
  refine ⟨order, horder, hsame, ?_⟩
  have hspread := spread_flatten order.tokens
  rwa [flatten_tokens] at hspread

end Texts

section Reread

mutual

/-- The handle that the reader makes of a tree: a null becomes a null value. -/
def reread : Json δ → Json δ
  | .null => .value .null true
  | .value v _ => .value v true
  | .array items => .array (rereadItems items)
  | .object members => .object (rereadMembers members)

def rereadItems : List (Json δ) → List (Json δ)
  | [] => []
  | item :: items => reread item :: rereadItems items

def rereadMembers : List (Text × Json δ) → List (Text × Json δ)
  | [] => []
  | (key, item) :: members => (key, reread item) :: rereadMembers members

end

mutual

theorem denote_reread : ∀ json : Json δ, json.reread.denote = json.denote
  | .null => rfl
  | .value v isStringFormat => rfl
  | .array items => by simp only [reread, denote, denoteItems_reread items]
  | .object members => by simp only [reread, denote, denoteMembers_reread members]

theorem denoteItems_reread : ∀ items : List (Json δ),
    denoteItems (rereadItems items) = denoteItems items
  | [] => rfl
  | item :: items => by
    simp only [rereadItems, denoteItems, denote_reread item, denoteItems_reread items]

theorem denoteMembers_reread : ∀ members : List (Text × Json δ),
    denoteMembers (rereadMembers members) = denoteMembers members
  | [] => rfl
  | (key, item) :: members => by
    funext k
    simp only [rereadMembers, denoteMembers, denote_reread item, denoteMembers_reread members]

end

theorem keys_reread (members : List (Text × Json δ)) :
    (rereadMembers members).map Prod.fst = members.map Prod.fst := by
  induction members with
  | nil => rfl
  | cons m members ih =>
    obtain ⟨key, item⟩ := m
    simp only [rereadMembers, List.map_cons, ih]

mutual

theorem printable_reread : ∀ json : Json δ, json.Printable → json.reread.Printable
  | .null, _ => trivial
  | .value v isStringFormat, h => by
    cases v with
    | string s => exact ⟨rfl, h.2⟩
    | uint64 x => exact h
    | double x => exact h
    | null => trivial
    | bool b => trivial
    | int64 x => trivial
  | .array items, h => by
    obtain ⟨hne, hitems⟩ := h
    refine ⟨fun hnil => hne ?_, printableItems_reread items hitems⟩
    cases items with
    | nil => rfl
    | cons item items => cases hnil
  | .object members, h => by
    obtain ⟨hne, hkeys, hmembers⟩ := h
    refine ⟨fun hnil => hne ?_, ?_, printableMembers_reread members hmembers⟩
    · cases members with
      | nil => rfl
      | cons m members => cases hnil
    · rw [keys_reread]
      exact hkeys

theorem printableItems_reread : ∀ items : List (Json δ),
    PrintableItems items → PrintableItems (rereadItems items)
  | [], _ => trivial
  | item :: items, h => ⟨printable_reread item h.1, printableItems_reread items h.2⟩

theorem printableMembers_reread : ∀ members : List (Text × Json δ),
    PrintableMembers members → PrintableMembers (rereadMembers members)
  | [], _ => trivial
  | (_, item) :: members, h =>
    ⟨h.1, printable_reread item h.2.1, printableMembers_reread members h.2.2⟩

end

end Reread

end Json

end OrderBookServer
