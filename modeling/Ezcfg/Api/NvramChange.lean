import Ezcfg.Http.Content
import Ezcfg.Http.Lengths
import Ezcfg.Json.Recognition

/-!
# Changing the settings of a remote nvram

`ezcfg_api_nvram_change` checks the text of the settings, writes it in its compact form into the
body of a request, sends this, and reads the answer. The functions of basic/json are those of
common/json under other names. The configuration and the socket are there, memory is granted, bytes
that were not written are zero, and the peer answers any bytes. When the request is about to be
built, the buffer for the body is handed over with its length without the terminator; the writer
wants room for one, so that nothing is ever sent.
-/

namespace Ezcfg.Api

open Foundation Foundation.Json Http Json

/-- `EZCFG_E_RESOURCE` -/
def eResource : Int := 101

/-- `EZCFG_E_READ` -/
def eRead : Int := 103

/-- `EZCFG_E_WRITE` -/
def eWrite : Int := 104

/-- `EZCFG_E_PARSE` -/
def eParse : Int := 105

/-- `EZCFG_E_RESULT` -/
def eResult : Int := 107

/-- Strings of the request are strings of C. -/
theorem request_proper {text : String} (known : text ∈ ["POST", "Host", "Accept", "Content-Type"]) :
    (0 : UInt8) ∉ ascii text ∧ (ascii text).length + 1 < 2 ^ 31 := by
  revert text
  decide

/-- A string of the request. -/
def requestText (text : String) (known : text ∈ ["POST", "Host", "Accept", "Content-Type"]) :
    CString :=
  constant text (request_proper known).1 (request_proper known).2

/-- `EZCFG_HTTP_METHOD_POST` -/
def post : CString := requestText "POST" (by decide)

/-- `EZCFG_HTTP_HEADER_HOST` -/
def headerHost : CString := requestText "Host" (by decide)

/-- `EZCFG_HTTP_HEADER_ACCEPT` -/
def headerAccept : CString := requestText "Accept" (by decide)

/-- `EZCFG_HTTP_HEADER_CONTENT_TYPE` -/
def headerContentType : CString := requestText "Content-Type" (by decide)

/-- `struct ezcfg_json_http` -/
structure JsonHttp where
  http : Handle
  json : Json

/-- `ezcfg_json_http_new` -/
def jsonHttpNew : JsonHttp where
  http := { httpNew with
    methodStrings := [post]
    knownHeaderStrings := [headerHost, headerContentType, headerContentLength] }
  json := jsonNew

/-- `ezcfg_json_http_reset_attributes` -/
def jsonHttpResetAttributes (jh : JsonHttp) : JsonHttp :=
  ⟨httpResetAttributes jh.http, jh.json.reset⟩

/-- `ezcfg_json_http_write_message` -/
def jsonHttpWriteMessage (jh : JsonHttp) (area : List UInt8) (len : Int) :
    Option (Int × List UInt8) := do
  ensure (0 < len)
  let (head, area) ← httpWriteHead jh.http area len
  if head < 0 then return (head, area)
  if jh.http.messageBody = none then return (head, area)
  let (n, area) ← httpWriteMessageBody jh.http area head.toNat (len - head)
  if n < 0 then return (n, area)
  return (head + n, area)

/-- `ezcfg_json_http_parse_message_body` -/
def jsonHttpParseMessageBody (jh : JsonHttp) : Option (Bool × JsonHttp) :=
  match jh.http.messageBody with
  | none => some (true, jh)
  | some body => do
    if body = [] then return (true, jh)
    let (ret, json) ← jsonParseText jh.json (body.takeWhile (· ≠ 0)) body.length
    return (ret ≠ retFail, { jh with json := json })

/-- The request that is built around a body. -/
def changeRequest (http : Handle) (msg : List UInt8) : Handle :=
  let http := httpSetMessageBody http msg
  let http := httpSetRequestMethod http post
  let http := { http with
    requestUri := some (constant "/ezcfg/nv_json")
    versionMajor := 1
    versionMinor := 1
    state := .request }
  let http := httpAddHeader http headerAccept (constant "application/json")
  httpAddHeader http headerContentType (constant "application/json")

/-- What is made of the settings in an answer: the result of the call, and the text that is handed
to the caller. -/
def changeResult (json : Json) : Option (Int × Option (List UInt8)) := do
  if !(← jsonIsNvramRepresentation json) then return (-eParse, none)
  if ← jsonIsNvramResultOk json then return (0, none)
  let msgLen := jsonGetMsgLen json
  let (n, _, presult) ← jsonWriteMessage json (List.replicate (msgLen + 1) 0) msgLen
  if n ≠ msgLen then return (-eWrite, none)
  return (-eResult, some presult)

/-- The answer is read into the buffer of the request. -/
def readAnswer (peer : Peer) (jh : JsonHttp) (msg : List UInt8)
    (msgLen : Nat) : Option (Int × Option (List UInt8)) := do
  let jh := jsonHttpResetAttributes jh
  let (headerLen, received, peer) ← socketReadHttpHeader peer [] msgLen
  if headerLen ≤ 0 then return (-eRead, none)
  let text ← ByteArea.stringAt (received ++ msg.drop received.length) 0
  let (parsed, http) ← httpParseHeader { jh.http with state := .response } text headerLen
  if !parsed then return (-eParse, none)
  let content ← socketReadHttpContent (fun _ => true) http peer received headerLen.toNat msgLen
  if content.code ≠ retOk then return (-eRead, none)
  if content.nread ≤ headerLen.toNat then changeResult jh.json
  else
    let body := (content.buf.drop headerLen.toNat).take (content.nread - headerLen.toNat)
    let (parsed, jh) ← jsonHttpParseMessageBody ⟨httpSetMessageBody http body, jh.json⟩
    if !parsed then return (-eParse, none)
    changeResult jh.json

/-- What comes of a call: its result, what was sent, and the text in `*presult`. -/
structure Outcome where
  rc : Int
  sent : List (List UInt8)
  presult : Option (List UInt8)
  deriving DecidableEq

/-- `ezcfg_api_nvram_change` -/
def ezcfgApiNvramChange (peer : Peer) (nvJson : List UInt8) : Option Outcome := do
  let jh := jsonHttpNew
  let (ret, json) ← jsonParseText jh.json nvJson nvJson.length
  if ret ≠ retOk then return ⟨-eResource, [], none⟩
  if !(← jsonIsNvramRepresentation json) then return ⟨-eResource, [], none⟩
  let msgLen := jsonGetMsgLen json
  let (n, json, msg) ← jsonWriteMessage json (List.replicate (msgLen + 1) 0) msgLen
  if n ≠ msgLen then return ⟨-eWrite, [], none⟩
  let jh : JsonHttp := ⟨changeRequest jh.http (msg.take msgLen), json⟩
  let msgLen ← httpGetMessageLength jh.http
  ensure (0 ≤ msgLen)
  let msg := (msg ++ List.replicate (msgLen.toNat + 1) 0).take msgLen.toNat ++ [0]
  let (n, msg) ← jsonHttpWriteMessage jh msg msgLen
  if n ≠ msgLen then return ⟨-eWrite, [], none⟩
  let (rc, presult) ← readAnswer peer jh msg msgLen.toNat
  return ⟨rc, [msg.take msgLen.toNat], presult⟩

/-- One complete POST request with a body has been sent. -/
def Posts (sent : List (List UInt8)) (body : List UInt8) : Prop :=
  ∃ http start, sent = [messageText http start] ∧ http.state = .request ∧ StartLine http start ∧
    entry http.methodStrings http.methodIndex = some post ∧ http.messageBody = some body

/-- A change is sent and its answer is understood: one request has the compact form of the text as
its body, and when the peer answers a response, the result is zero if and only if the body of the
response is the empty object. -/
def Changes (outcome : Outcome) (peer : Peer) (nvJson : List UInt8) : Prop :=
  Posts outcome.sent (strip false nvJson) ∧
    ∀ http start body, peer.flatten = messageText http start → http.state = .response →
      StartLine http start → http.messageBody = some body →
        (outcome.rc = 0 ↔ DerivesText tokens (.object .nil) body)

/-- The writer refuses a buffer that has no room behind the text. -/
theorem write_refused {value : Value} (container : value.Container) (buf : List UInt8) :
    jsonWriteMessage (handleOf value) buf (jsonGetMsgLen (handleOf value)) =
      some (-1, handleOf value, buf) := by
  have counted : 0 < jsonGetMsgLen (handleOf value) := print_pos container
  have short : ((jsonGetMsgLen (handleOf value) : Nat) : Int) ≤ (handleOf value).msgLen :=
    Int.le_refl _
  rw [jsonWriteMessage, if_neg (by omega), if_pos short]

/-- Nothing sent is no request. -/
theorem not_posts_nil (body : List UInt8) : ¬Posts [] body := by
  rintro ⟨http, start, sent, -⟩
  cases sent

/-- No change is ever sent: every call with settings fails with a write error before anything is
sent. -/
theorem not_changes (text : Text) {json : Json}
    (accepted : jsonParseText jsonNew text.bytes text.bytes.length = some (retOk, json))
    (recognised : jsonIsNvramRepresentation json = some true) (peer : Peer) :
    ∃ outcome, ezcfgApiNvramChange peer text.bytes = some outcome ∧ outcome.rc = -eWrite ∧
      ¬Changes outcome peer text.bytes := by
  have positive : (0 : Int) < text.bytes.length := by
    by_contra empty
    rw [jsonParseText, if_pos (Int.not_lt.mp empty)] at accepted
    cases accepted
  obtain ⟨value, derives, rfl⟩ := derives_of_accepted positive accepted
  have container : value.Container := by
    cases derives with
    | intro _ rest =>
      obtain ⟨-, -, -, -, -, container, -⟩ := rest
      exact container
  have parsed : jsonParseText jsonHttpNew.json text.bytes text.bytes.length =
      some (retOk, handleOf value) := accepted
  have differs : (-1 : Int) ≠ (jsonGetMsgLen (handleOf value) : Int) := by
    omega
  refine ⟨⟨-eWrite, [], none⟩, ?_, rfl, ?_⟩
  · apply (bind_of_some parsed).trans
    apply (if_neg (not_not_intro rfl)).trans
    apply (bind_of_some recognised).trans
    apply (if_neg Bool.false_ne_true).trans
    apply (bind_of_some (write_refused container _)).trans
    exact if_pos differs
  · intro changes
    exact not_posts_nil _ changes.1

/-- The settings `{"a":"b"}`. -/
def settingText : Text where
  bytes := [0x7b, 0x22, 0x61, 0x22, 0x3a, 0x22, 0x62, 0x22, 0x7d]
  nonul := by decide
  short := by decide

/-- Their value. -/
def settingValue : Value := .object (.cons [0x61] (.string [0x62]) .nil)

/-- They are parsed. -/
theorem settingText_accepted : jsonParseText jsonNew settingText.bytes settingText.bytes.length =
    some (retOk, handleOf settingValue) := by
  decide +kernel

theorem not_changes_setting : ∃ outcome,
    ezcfgApiNvramChange [] settingText.bytes = some outcome ∧ outcome.rc = -eWrite ∧
      ¬Changes outcome [] settingText.bytes :=
  not_changes settingText settingText_accepted (by decide) []

/-- A change of settings is not always sent. -/
theorem not_always_changes : ¬ ∀ (text : Text) (json : Json) (peer : Peer),
    jsonParseText jsonNew text.bytes text.bytes.length = some (retOk, json) →
    jsonIsNvramRepresentation json = some true →
    ∃ outcome, ezcfgApiNvramChange peer text.bytes = some outcome ∧
      Changes outcome peer text.bytes := by
  intro always
  have refused : ezcfgApiNvramChange [] settingText.bytes = some ⟨-eWrite, [], none⟩ := by
    decide +kernel
  obtain ⟨outcome, called, changes⟩ := always settingText _ [] settingText_accepted (by decide)
  obtain rfl := Option.some.inj (refused.symm.trans called)
  exact not_posts_nil _ changes.1

end Ezcfg.Api
