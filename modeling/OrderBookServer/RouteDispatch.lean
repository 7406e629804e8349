import OrderBookServer.RouteController

/-!
Which handler a request gets, and what is written for it in every run of the loops.
-/
namespace OrderBookServer

open Coroutine Occurrences

theorem lookup_insertEntry {κ α : Type} [DecidableEq κ] [BEq κ] [LawfulBEq κ] (key key' : κ)
    (value : α) (entries : List (κ × α)) : (insertEntry key value entries).lookup key' =
      if key' = key then some value else entries.lookup key' := by
  induction entries with
  | nil =>
    rw [insertEntry, List.lookup_cons]
    by_cases hkey : key' = key
    · simp [hkey]
    · simp [hkey, beq_false_of_ne hkey]
  | cons entry entries ih =>
    rw [insertEntry]
    by_cases hentry : entry.1 = key
    · rw [if_pos hentry, List.lookup_cons, List.lookup_cons, hentry]
      by_cases hkey : key' = key
      · simp [hkey]
      · simp [hkey, beq_false_of_ne hkey]
    · rw [if_neg hentry, List.lookup_cons, List.lookup_cons, ih]
      by_cases hkey : key' = key
      · subst hkey
        simp [beq_false_of_ne (Ne.symm hentry)]
      · rw [if_neg hkey, if_neg hkey]

/-- The handler that was added last for an address and a method is the one that is found. -/
theorem lookup_insertEntries {α : Type} (routes : List (Text × List (Option RequestMethod × α)))
    (method : Option RequestMethod) (routePath : Text) (handler : α) (url : Text)
    (method' : Option RequestMethod) :
    ((insertEntry routePath (insertEntry method handler ((routes.lookup routePath).getD []))
      routes).lookup url).bind (·.lookup method') =
      if url = routePath ∧ method' = method then some handler
      else (routes.lookup url).bind (·.lookup method') := by
  simp only [lookup_insertEntry]
  by_cases hurl : url = routePath
  · subst hurl
    simp only [if_true, Option.bind_some, lookup_insertEntry, true_and]
    by_cases hmethod : method' = method
    · simp only [hmethod, if_true]
    · simp only [hmethod, if_false]
      cases routes.lookup url with
      | none => rfl
      | some routeSet => rfl
  · simp only [hurl, if_false, false_and]

namespace HttpResponse

variable {δ : Type} [CharConv δ]

/-- The response has a text, and the values of its own headers fit the array in which they are
written. -/
structure Writable (response : HttpResponse δ) : Prop where
  code : response.responseCode ≠ .riskError410
  headers : ∀ m ∈ response.members, m.2.FitsBuffer

theorem writable_ofContent {code : ResponseStatusCode} (h : code ≠ .riskError410)
    (content : Text) (fileInfo : FileInfo) :
    (ofContent code content fileInfo : HttpResponse δ).Writable := ⟨h, nofun⟩

/-- The text of a response is never empty, so an empty text can stand for no match. -/
theorem exists_text {response : HttpResponse δ} (h : response.responseCode ≠ .riskError410) :
    ∃ text, response.getResponseInString = some text ∧ text ≠ [] := by
  obtain ⟨status, hstatus, _⟩ := ResponseStatusCode.exists_status h
  refine ⟨_, getResponseInString_eq hstatus, ?_⟩
  simp [lineEnd]

end HttpResponse

namespace RouteController

variable {L A δ : Type} [CharConv δ] {controller : RouteController L A δ}
  {files : Text → FileEntry} {dirPath : Text} {request : HttpRequest δ}
  {events : List (Event L (Statement A) (Value δ))} {v : Value δ}

section Serving

variable (controller files dirPath request)

/-- The first group, in the order of the map, whose path is in the address and that has the
method; or else the route of the address. -/
def serving : Option (RequestHandleFunction L A δ) :=
  match controller.routeGroupMap.findSome? fun group =>
    if (indexOf group.1 request.url).isSome then group.2.lookup request.getRequestMethod
    else none with
  | some handler => some handler
  | none => (controller.routeMap.lookup request.url).bind (·.lookup request.getRequestMethod)

/-- The response where there is no handler. -/
def unserved : HttpResponse δ :=
  let filePath := controller.dashboardFolder ++ request.url
  if controller.dashboardFolder ≠ [] ∧ HttpRequest.checkIsFilePathExist files dirPath filePath then
    HttpRequest.sendFileFromDirectory files dirPath filePath []
  else controller.badRequestGetter request

/-- What is done to the socket or to the request itself. -/
def onSocket : Event L (Statement A) (Value δ) → Bool
  | .did (.handler _) => false
  | .did _ => true
  | _ => false

/-- The responses can be written, and writing them is not left to the handlers. -/
structure Answerable : Prop where
  handlers : ∀ handler, controller.serving request = some handler → ∀ events v,
    Evaluates (handler request) events v → v.asResponse.Writable
  quiet : ∀ handler, controller.serving request = some handler → ∀ events v,
    Evaluates (handler request) events v → ∀ e ∈ events, onSocket e = false
  badRequest : (controller.badRequestGetter request).Writable

end Serving

omit [CharConv δ] in
theorem routeGroup_addRouteGroup (method : Option RequestMethod) (routePath : Text)
    (handler : RequestHandleFunction L A δ) (path : Text) (method' : Option RequestMethod) :
    (((controller.addRouteGroup method routePath handler).routeGroupMap.lookup path).bind
      (·.lookup method')) = if path = routePath ∧ method' = method then some handler
      else (controller.routeGroupMap.lookup path).bind (·.lookup method') :=
  lookup_insertEntries ..

theorem checkGroups_eq
    (groups : List (Text × List (Option RequestMethod × RequestHandleFunction L A δ))) :
    checkGroups request groups =
      match groups.findSome? fun group =>
        if (indexOf group.1 request.url).isSome then group.2.lookup request.getRequestMethod
        else none with
      | some handler => callHandler handler request
      | none => .coReturn (.text []) := by
  induction groups with
  | nil => rfl
  | cons group groups ih =>
    obtain ⟨path, routeSet⟩ := group
    rw [checkGroups, List.findSome?_cons]
    by_cases hpath : (indexOf path request.url).isSome
    · simp only [hpath, if_true]
      cases hmethod : routeSet.lookup request.getRequestMethod with
      | some handler => rfl
      | none => exact ih
    · simp only [hpath]
      exact ih

theorem evaluates_withText {response : HttpResponse δ} (next : Text → Program L A δ)
    (h : response.responseCode ≠ .riskError410) :
    ∃ text, response.getResponseInString = some text ∧ text ≠ [] ∧
      withText response next = next text := by
  obtain ⟨text, htext, hne⟩ := HttpResponse.exists_text h
  refine ⟨text, htext, hne, ?_⟩
  unfold withText
  rw [htext]

/-- A handler that is called does what it does and its response is made a text. -/
theorem evaluates_callHandler {handler : RequestHandleFunction L A δ}
    (hwritable : ∀ events v, Evaluates (handler request) events v → v.asResponse.Writable)
    (h : Evaluates (callHandler handler request) events v) : ∃ u text,
      Evaluates (handler request) events u ∧ u.asResponse.getResponseInString = some text ∧
        text ≠ [] ∧ v = .text text := by
  cases h with
  | @awaitTask task next did rest u v hhandler hnext =>
    obtain ⟨text, htext, hne, hwith⟩ := evaluates_withText
      (fun text => (.coReturn (.text text) : Program L A δ)) (hwritable did u hhandler).code
    have hlast : Evaluates (withText u.asResponse fun text => .coReturn (.text text)) rest v :=
      hnext
    rw [hwith] at hlast
    cases hlast
    rw [List.append_nil]
    exact ⟨u, text, hhandler, htext, hne, rfl⟩

variable (files dirPath) in
omit [CharConv δ] in
theorem sendFile_code (fileInfo : FileInfo) (url : Text) :
    (HttpRequest.sendFile files dirPath url fileInfo : HttpResponse δ).responseCode ≠
      .riskError410 := by
  unfold HttpRequest.sendFile
  cases files (dirPath ++ ['/'] ++ url) with
  | absent => exact nofun
  | directory => exact nofun
  | unreadable => exact nofun
  | file content => exact nofun

variable (files dirPath) in
/-- Where no handler has answered, the response is that of a file or that there is none. -/
theorem handleUnmatched_nil (hanswerable : controller.Answerable request) : ∃ text,
    (controller.unserved files dirPath request).getResponseInString = some text ∧
      controller.handleUnmatched files dirPath request [] = .coReturn (.text text) := by
  obtain ⟨bad, hbad, _, hwithBad⟩ := evaluates_withText
    (fun text => (.coReturn (.text text) : Program L A δ)) hanswerable.badRequest.code
  unfold handleUnmatched checkSendFileFromDashboardFolder unserved
  by_cases hfolder : controller.dashboardFolder = []
  · simp only [hfolder, ne_eq, not_true_eq_false, if_false, if_true, false_and]
    exact ⟨bad, hbad, hwithBad⟩
  · by_cases hexists : HttpRequest.checkIsFilePathExist files dirPath
        (controller.dashboardFolder ++ request.url)
    · obtain ⟨text, htext, hne, hwith⟩ := evaluates_withText
        (fun response => (if response = [] then
          withText (controller.badRequestGetter request) fun text => .coReturn (.text text)
          else .coReturn (.text response) : Program L A δ))
        (sendFile_code files dirPath
          ⟨HttpRequest.checkFileType (controller.dashboardFolder ++ request.url), []⟩
          (controller.dashboardFolder ++ request.url))
      refine ⟨text, ?_, ?_⟩
      · simp only [hfolder, ne_eq, not_false_eq_true, hexists, and_self, if_true]
        exact htext
      · simp only [hfolder, ne_eq, not_false_eq_true, hexists, if_true]
        refine hwith.trans ?_
        rw [if_neg hne]
    · simp only [hfolder, ne_eq, not_false_eq_true, hexists, if_true]
      exact ⟨bad, hbad, hwithBad⟩

theorem handleUnmatched_ne {text : Text} (h : text ≠ []) :
    controller.handleUnmatched files dirPath request text = .coReturn (.text text) := by
  unfold handleUnmatched
  simp only [h, if_false]

/-- What a request comes to: the events of its handler and the response, or no event and the
response that there is without a handler. -/
def Answered (controller : RouteController L A δ) (files : Text → FileEntry) (dirPath : Text)
    (request : HttpRequest δ) (events : List (Event L (Statement A) (Value δ)))
    (response : HttpResponse δ) : Prop :=
  match controller.serving request with
  | some handler => ∃ v, Evaluates (handler request) events v ∧ response = v.asResponse
  | none => events = [] ∧ response = controller.unserved files dirPath request

omit [CharConv δ] in
theorem answered_of_some {handler : RequestHandleFunction L A δ}
    (hserving : controller.serving request = some handler)
    (h : Evaluates (handler request) events v) :
    controller.Answered files dirPath request events v.asResponse := by
  unfold Answered
  rw [hserving]
  exact ⟨v, h, rfl⟩

/-- The groups come first, and an empty text of theirs means that none of them serves. -/
theorem evaluates_handleRequest (hanswerable : controller.Answerable request)
    (h : Evaluates (controller.handleRequestBaseOnRoute files dirPath request) events v) :
    ∃ response text, controller.Answered files dirPath request events response ∧
      response.getResponseInString = some text ∧ v = .text text := by
  cases h with
  | @awaitTask group next did rest u v hgroup hnext =>
    unfold checkHandleByRouteGroup at hgroup
    rw [checkGroups_eq] at hgroup
    cases hfound : controller.routeGroupMap.findSome? fun group =>
        if (indexOf group.1 request.url).isSome then group.2.lookup request.getRequestMethod
        else none with
    | some handler =>
      have hserving : controller.serving request = some handler := by
        unfold serving
        rw [hfound]
      rw [hfound] at hgroup
      obtain ⟨w, text, hhandler, htext, hne, rfl⟩ :=
        evaluates_callHandler (hanswerable.handlers handler hserving) hgroup
      simp only [Value.asText, hne, if_false, handleUnmatched_ne hne] at hnext
      cases hnext
      rw [List.append_nil]
      exact ⟨_, text, answered_of_some hserving hhandler, htext, rfl⟩
    | none =>
      rw [hfound] at hgroup
      cases hgroup
      simp only [Value.asText, if_true] at hnext
      cases hnext with
      | @awaitTask route next did rest u v hroute hnext =>
        unfold checkHandleByRoute at hroute
        cases hhandler : (controller.routeMap.lookup request.url).bind
            (·.lookup request.getRequestMethod) with
        | some handler =>
          have hserving : controller.serving request = some handler := by
            unfold serving
            rw [hfound]
            exact hhandler
          rw [hhandler] at hroute
          obtain ⟨w, text, hdid, htext, hne, rfl⟩ :=
            evaluates_callHandler (hanswerable.handlers handler hserving) hroute
          simp only [handleUnmatched_ne hne] at hnext
          cases hnext
          rw [List.append_nil]
          exact ⟨_, text, answered_of_some hserving hdid, htext, rfl⟩
        | none =>
          have hserving : controller.serving request = none := by
            unfold serving
            rw [hfound]
            exact hhandler
          rw [hhandler] at hroute
          cases hroute
          obtain ⟨text, htext, hunmatched⟩ :=
            handleUnmatched_nil files dirPath hanswerable
          simp only [hunmatched] at hnext
          cases hnext
          refine ⟨_, text, ?_, htext, rfl⟩
          unfold Answered
          rw [hserving]
          exact ⟨rfl, rfl⟩

/-- Nothing is done to the socket by what a request comes to. -/
theorem Answered.quiet {response : HttpResponse δ} (hanswerable : controller.Answerable request)
    (h : controller.Answered files dirPath request events response) :
    events.filter onSocket = [] := by
  unfold Answered at h
  cases hserving : controller.serving request with
  | some handler =>
    rw [hserving] at h
    obtain ⟨v, hv, -⟩ := h
    rw [List.filter_eq_nil_iff]
    intro e he
    rw [hanswerable.quiet handler hserving events v hv e he]
    exact Bool.false_ne_true
  | none =>
    rw [hserving] at h
    rw [h.1, List.filter_nil]

/-- A request is answered once, with the response of the handler that serves it, and is deleted
after that. -/
theorem evaluates_executeRequest (hanswerable : controller.Answerable request)
    (h : Evaluates (controller.executeRequest files dirPath request) events v) :
    ∃ did response text, controller.Answered files dirPath request did response ∧
      response.getResponseInString = some text ∧
        events = did ++ [.did (.writeToSocketIo text), .did .deleteRequest] := by
  cases h with
  | @awaitTask task next did rest u v hhandled hnext =>
    obtain ⟨response, text, hanswered, htext, rfl⟩ := evaluates_handleRequest hanswerable hhandled
    cases hnext with
    | act hnext =>
      cases hnext with
      | act hnext =>
        cases hnext
        exact ⟨did, response, text, hanswered, htext, rfl⟩

/-- Where there is no request, one page is written that says that nothing was found. -/
theorem evaluates_send404Response (h : Evaluates (send404Response : Program L A δ) events v) :
    ∃ text, (HttpRequest.badRequestDefault : HttpResponse δ).getResponseInString = some text ∧
      events = [.did (.writeToSocketIo text)] := by
  have hcode : (HttpRequest.badRequestDefault : HttpResponse δ).responseCode ≠ .riskError410 :=
    nofun
  obtain ⟨text, htext, -, hwith⟩ := evaluates_withText
    (fun text => (.act (.writeToSocketIo text) (.coReturn .unit) : Program L A δ)) hcode
  unfold send404Response at h
  rw [hwith] at h
  cases h with
  | act hnext =>
    cases hnext
    exact ⟨text, htext, rfl⟩

/-- In every run of the loops a request that is executed is answered by one write, with the text of
the response of the handler that serves it. -/
theorem request_answered [DecidableEq L] {s : EventLoop.State L (Statement A) (Value δ)}
    (h : Runs.Reaches (fun s a => s.next a) (fun _ _ => True) EventLoop.init s) {r : ℕ}
    (hanswerable : controller.Answerable request)
    (hr : s.roots r = some (controller.executeRequest files dirPath request))
    (hv : s.promiseValue r = some v) :
    ∃ did response text, controller.Answered files dirPath request did response ∧
      response.getResponseInString = some text ∧
        s.logOf r = did ++ [.did (.writeToSocketIo text), .did .deleteRequest] ∧
          (s.logOf r).filter onSocket = [.did (.writeToSocketIo text), .did .deleteRequest] := by
  obtain ⟨did, response, text, hanswered, htext, hlog⟩ :=
    evaluates_executeRequest hanswerable (EventLoop.evaluates_of_returned h hr hv)
  refine ⟨did, response, text, hanswered, htext, hlog, ?_⟩
  rw [hlog, List.filter_append, hanswered.quiet hanswerable]
  rfl

/-- A page for one address. -/
def onePage : RouteController Unit Empty Empty :=
  empty.addRoute (some .get) ['/'] fun _ => .coReturn (.response (.ofContent .ok200 ['a'] .default))

def pageRequest : HttpRequest Empty := ⟨.get, ['/'], [], [], [], [], .null⟩

def pageSteps : List (EventLoop.Action Unit (Statement Empty) (Value Empty)) :=
  [.startRunningOn () (onePage.executeRequest (fun _ => .absent) [] pageRequest),
    .checkHandle () 0, .advance (), .checkHandle () 1, .advance (), .checkHandle () 2,
    .advance (), .advance (), .checkHandle () 1, .advance (), .checkHandle () 3, .advance (),
    .checkHandle () 4, .advance (), .advance (), .checkHandle () 3, .advance (), .advance (),
    .checkHandle () 1, .advance (), .advance (), .checkHandle () 0, .advance (), .advance (),
    .advance ()]

theorem answerable_onePage : onePage.Answerable pageRequest := by
  refine ⟨fun handler hserving events v hv => ?_, fun handler hserving events v hv e he => ?_,
    HttpResponse.writable_ofContent (by decide) _ _⟩
  · cases hserving
    cases hv
    exact HttpResponse.writable_ofContent (by decide) _ _
  · cases hserving
    cases hv
    cases he

theorem request_answered_onePage : ∃ s : EventLoop.State Unit (Statement Empty) (Value Empty),
    Runs.Reaches (fun s a => s.next a) (fun _ _ => True) EventLoop.init s ∧
      s.promiseValue 0 = some .unit ∧ ∃ did response text,
        onePage.Answered (fun _ => .absent) [] pageRequest did response ∧
          response.getResponseInString = some text ∧
            s.logOf 0 = did ++ [.did (.writeToSocketIo text), .did .deleteRequest] ∧
              (s.logOf 0).filter onSocket =
                [.did (.writeToSocketIo text), .did .deleteRequest] := by
  have hrun := Runs.Reaches.follow pageSteps
    (.start : Runs.Reaches (fun (s : EventLoop.State Unit (Statement Empty) (Value Empty)) a =>
      s.next a) (fun _ _ => True) EventLoop.init EventLoop.init) rfl
  exact ⟨_, hrun, rfl, request_answered hrun answerable_onePage rfl rfl⟩

end RouteController

end OrderBookServer
