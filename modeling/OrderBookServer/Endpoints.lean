import OrderBookServer.HttpFraming
import OrderBookServer.RouteDispatch

/-!
The endpoints of src/main.cpp, from the bytes of a request to those of its response. The handlers
that wait for the order book are parameters; each of them returns a JSON text that fits the array
in which it is written.
-/
namespace OrderBookServer

open Coroutine StdString

namespace Endpoints

variable {L A δ : Type}

/-- The folder of the pages, which `handle_read` passes on. -/
def dirPath : Text := "web_data".toList

/-- The page of the endpoint `/`. -/
def index (files : Text → FileEntry) : HttpResponse δ :=
  HttpRequest.sendFileFromDirectory files dirPath "/index.html".toList []

/-- The endpoints and what there is elsewhere, with what is done for a request and the response. -/
inductive Answers [CharConv δ] (files : Text → FileEntry)
    (getSnapshot startStreaming stopStreaming : RequestHandleFunction L A δ)
    (request : HttpRequest δ) : List (Event L (Statement A) (Value δ)) → HttpResponse δ → Prop
  | index (hmethod : request.method = .get) (hurl : request.url = "/".toList) :
      Answers files getSnapshot startStreaming stopStreaming request [] (Endpoints.index files)
  | getSnapshot {events : List (Event L (Statement A) (Value δ))} {json : Json δ}
      (hmethod : request.method = .get) (hurl : request.url = "/get_snapshot".toList)
      (hfits : json.FitsBuffer)
      (h : Evaluates (getSnapshot request) events (.response (.ofJson .ok200 json))) :
      Answers files getSnapshot startStreaming stopStreaming request events (.ofJson .ok200 json)
  | startStreaming {events : List (Event L (Statement A) (Value δ))} {json : Json δ}
      (hmethod : request.method = .post)
      (hurl : request.url = "/start_streaming_orderbook".toList)
      (hfits : json.FitsBuffer)
      (h : Evaluates (startStreaming request) events (.response (.ofJson .ok200 json))) :
      Answers files getSnapshot startStreaming stopStreaming request events (.ofJson .ok200 json)
  | stopStreaming {events : List (Event L (Statement A) (Value δ))} {json : Json δ}
      (hmethod : request.method = .get)
      (hurl : request.url = "/stop_streaming_orderbook".toList)
      (hfits : json.FitsBuffer)
      (h : Evaluates (stopStreaming request) events (.response (.ofJson .ok200 json))) :
      Answers files getSnapshot startStreaming stopStreaming request events (.ofJson .ok200 json)
  | notFound
      (hget : request.method = .get → request.url ∉ ["/".toList, "/get_snapshot".toList,
        "/stop_streaming_orderbook".toList])
      (hpost : request.method = .post → request.url ≠ "/start_streaming_orderbook".toList) :
      Answers files getSnapshot startStreaming stopStreaming request []
        HttpRequest.badRequestDefault

section Serving

variable {files : Text → FileEntry}
  {getSnapshot startStreaming stopStreaming : RequestHandleFunction L A δ}
  {request : HttpRequest δ}

variable [CharConv δ]

theorem sendable_ofJson (json : Json δ) : (HttpResponse.ofJson .ok200 json).Sendable :=
  ⟨nofun, nofun, nofun, nofun⟩

theorem sendable_ofContent (code : ResponseStatusCode) (hcode : code ≠ .riskError410)
    (content : Text) (fileType : ResponseFileType) :
    (HttpResponse.ofContent code content ⟨fileType, []⟩ : HttpResponse δ).Sendable :=
  ⟨hcode, nofun, nofun, nofun⟩

theorem sendable_sendFile (dirPath url : Text) (fileType : ResponseFileType) :
    (HttpRequest.sendFile files dirPath url ⟨fileType, []⟩ : HttpResponse δ).Sendable := by
  unfold HttpRequest.sendFile
  cases files (dirPath ++ ['/'] ++ url) with
  | absent => exact sendable_ofContent .notFound404 (by decide) _ _
  | directory => exact ⟨nofun, nofun, nofun, nofun⟩
  | unreadable => exact ⟨nofun, nofun, nofun, nofun⟩
  | file content => exact sendable_ofContent .ok200 (by decide) _ _

theorem Answers.sendable {events : List (Event L (Statement A) (Value δ))}
    {response : HttpResponse δ}
    (h : Answers files getSnapshot startStreaming stopStreaming request events response) :
    response.Sendable := by
  cases h with
  | index => exact sendable_sendFile _ _ _
  | getSnapshot => exact sendable_ofJson _
  | startStreaming => exact sendable_ofJson _
  | stopStreaming => exact sendable_ofJson _
  | notFound => exact sendable_ofContent .notFound404 (by decide) _ _

theorem Answers.writable {events : List (Event L (Statement A) (Value δ))}
    {response : HttpResponse δ}
    (h : Answers files getSnapshot startStreaming stopStreaming request events response) :
    response.Writable := by
  refine ⟨h.sendable.status, ?_⟩
  cases h with
  | index =>
    unfold Endpoints.index HttpRequest.sendFileFromDirectory HttpRequest.sendFile
    cases files (dirPath ++ ['/'] ++ "/index.html".toList) <;> exact nofun
  | _ => exact nofun

/-- The page of the endpoint `/` has one letter. -/
def onePage (_ : Text) : FileEntry := .file ['a']

end Serving

end Endpoints

end OrderBookServer
