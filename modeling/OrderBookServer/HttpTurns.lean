import OrderBookServer.HttpRequest

/-!
How a request is read does not depend on the number of turns that the loops may take, unless
there are too few.
-/
namespace OrderBookServer

open StdString

variable {few many : ℕ}

theorem splitFrom_refines (str del : Text) (h : few ≤ many) (stop : ℤ) (res : List Text) :
    Refines (splitFrom str del few stop res) (splitFrom str del many stop res) := by
  induction few generalizing many stop res with
  | zero => exact Or.inl rfl
  | succ few ih =>
    obtain ⟨many, rfl⟩ : ∃ rest, many = rest + 1 := ⟨many - 1, by omega⟩
    unfold splitFrom
    simp only
    split
    · exact (Refines.refl _).bind fun piece => ih (by omega) _ _
    · exact Refines.refl _

theorem splitString_refines (str del : Text) (h : few ≤ many) :
    Refines (splitString few str del) (splitString many str del) := splitFrom_refines str del h _ _

namespace HttpRequest

theorem queryParamsFrom_refines (queryString : Text) (h : few ≤ many) (start : ℕ)
    (params : List (Text × Text)) : Refines (queryParamsFrom queryString few start params)
      (queryParamsFrom queryString many start params) := by
  induction few generalizing many start params with
  | zero => exact Or.inl rfl
  | succ few ih =>
    obtain ⟨many, rfl⟩ : ∃ rest, many = rest + 1 := ⟨many - 1, by omega⟩
    unfold queryParamsFrom
    split
    · refine (Refines.refl _).bind fun param => ?_
      simp only
      split
      · exact Refines.refl _
      · exact (Refines.refl _).bind fun key => (Refines.refl _).bind fun value =>
          ih (by omega) _ _
    · exact Refines.refl _

theorem headerParamsFrom_refines (h : few ≤ many) (lines : List Text)
    (params : List (Text × Text)) :
    Refines (headerParamsFrom few lines params) (headerParamsFrom many lines params) := by
  induction lines generalizing params with
  | nil => exact Refines.refl _
  | cons line lines ih =>
    unfold headerParamsFrom
    refine (splitString_refines line _ h).bind fun pieces => ?_
    split
    · exact ih _
    · exact ih _

theorem deserializeHeaderParams_refines (content : Text) (h : few ≤ many) :
    Refines (deserializeHeaderParams few content) (deserializeHeaderParams many content) := by
  unfold deserializeHeaderParams
  exact (Refines.refl _).bind fun headers => (splitString_refines headers _ h).bind
    fun lines => headerParamsFrom_refines h lines []

section Body

variable {δ : Type}

theorem formDataFrom_refines (body frame : Text) (h : few ≤ many) (start : ℤ) (json : Json δ) :
    Refines (formDataFrom body frame few start json) (formDataFrom body frame many start json) := by
  induction few generalizing many start json with
  | zero => exact Or.inl rfl
  | succ few ih =>
    obtain ⟨many, rfl⟩ : ∃ rest, many = rest + 1 := ⟨many - 1, by omega⟩
    unfold formDataFrom
    simp only
    split
    · exact (Refines.refl _).bind fun key => (Refines.refl _).bind fun value => ih (by omega) _ _
    · exact Refines.refl _

theorem deserializeBodyFormData_refines (body : Text) (h : few ≤ many) (json : Json δ) :
    Refines (deserializeBodyFormData few body json) (deserializeBodyFormData many body json) := by
  unfold deserializeBodyFormData
  simp only
  split
  · exact (Refines.refl _).bind fun frame => formDataFrom_refines body frame h 0 json
  · exact Refines.refl _

theorem rawDataFrom_refines (h : few ≤ many) (items : List Text) (json : Json δ) :
    Refines (rawDataFrom few items json) (rawDataFrom many items json) := by
  induction items generalizing json with
  | nil => exact Refines.refl _
  | cons item items ih =>
    unfold rawDataFrom
    refine (splitString_refines item _ h).bind fun pieces => ?_
    split
    · exact ih _
    · exact ih _

theorem deserializeBodyRawData_refines (body : Text) (h : few ≤ many) (json : Json δ) :
    Refines (deserializeBodyRawData few body json) (deserializeBodyRawData many body json) := by
  unfold deserializeBodyRawData
  split
  · exact (splitString_refines body _ h).bind fun items => rawDataFrom_refines h items json
  · exact Refines.refl _

theorem readMessage_refines (parse : Text → Except Failure (Json δ)) (content : Text)
    (h : few ≤ many) :
    Refines (readMessage few parse content) (readMessage many parse content) := by
  have hbody : ∀ method, Refines (deserializeBodyOf few parse method content)
      (deserializeBodyOf many parse method content) := by
    intro method
    unfold deserializeBodyOf
    split
    · exact (Refines.refl _).bind fun body => (Refines.refl _).bind fun parsed =>
        (deserializeBodyFormData_refines body h parsed).bind fun json =>
          (deserializeBodyRawData_refines body h json).bind fun json => Refines.refl _
    · exact Refines.refl _
  have hdeserialize : ∀ method, Refines (deserialize few parse method content)
      (deserialize many parse method content) := by
    intro method
    unfold deserialize
    exact (Refines.refl _).bind fun target => (Refines.refl _).bind fun url =>
      (queryParamsFrom_refines _ h 0 []).bind fun queryParams =>
        (deserializeHeaderParams_refines content h).bind fun headerParams =>
          (hbody method).bind fun body => Refines.refl _
  have hcreate : Refines (createNewHttpRequest few parse content)
      (createNewHttpRequest many parse content) := by
    unfold createNewHttpRequest
    simp only
    split
    · exact Refines.refl _
    · refine (Refines.refl _).bind fun name => ?_
      split
      · exact Refines.refl _
      · exact (hdeserialize _).bind fun request => Refines.refl _
  exact hcreate.bind fun request => Refines.refl _

end Body

end HttpRequest

end OrderBookServer
