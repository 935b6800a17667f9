import Codo.Support.Decimal

/-!
# Requests and responses

The types of `http_types.h` and the functions of `http_protocol.c` that fill in
a response.  Texts are C strings.  A response is what is handed to
`send_http_response`; its validators, which only file responses carry, are left
out.
-/

namespace Codo.Common

open Codo.Support

inductive HttpMethod
  | get | post | put | delete | head | options | patch | connect | trace
  | unknown
  deriving DecidableEq

inductive HttpStatus
  | switchingProtocols | ok | created | accepted | noContent | partialContent
  | movedPermanently | found | notModified | badRequest | unauthorized
  | forbidden | notFound | methodNotAllowed | requestTimeout | conflict
  | payloadTooLarge | rangeNotSatisfiable | tooManyRequests
  | internalServerError | notImplemented | badGateway | serviceUnavailable
  | gatewayTimeout
  deriving DecidableEq

def HttpStatus.code : HttpStatus → ℕ
  | .switchingProtocols => 101
  | .ok => 200
  | .created => 201
  | .accepted => 202
  | .noContent => 204
  | .partialContent => 206
  | .movedPermanently => 301
  | .found => 302
  | .notModified => 304
  | .badRequest => 400
  | .unauthorized => 401
  | .forbidden => 403
  | .notFound => 404
  | .methodNotAllowed => 405
  | .requestTimeout => 408
  | .conflict => 409
  | .payloadTooLarge => 413
  | .rangeNotSatisfiable => 416
  | .tooManyRequests => 429
  | .internalServerError => 500
  | .notImplemented => 501
  | .badGateway => 502
  | .serviceUnavailable => 503
  | .gatewayTimeout => 504

/-- `http_status_to_string`. -/
def HttpStatus.reason : HttpStatus → Bytes
  | .switchingProtocols => ascii "Switching Protocols"
  | .ok => ascii "OK"
  | .created => ascii "Created"
  | .accepted => ascii "Accepted"
  | .noContent => ascii "No Content"
  | .partialContent => ascii "Partial Content"
  | .movedPermanently => ascii "Moved Permanently"
  | .found => ascii "Found"
  | .notModified => ascii "Not Modified"
  | .badRequest => ascii "Bad Request"
  | .unauthorized => ascii "Unauthorized"
  | .forbidden => ascii "Forbidden"
  | .notFound => ascii "Not Found"
  | .methodNotAllowed => ascii "Method Not Allowed"
  | .requestTimeout => ascii "Request Timeout"
  | .conflict => ascii "Conflict"
  | .payloadTooLarge => ascii "Payload Too Large"
  | .rangeNotSatisfiable => ascii "Range Not Satisfiable"
  | .tooManyRequests => ascii "Too Many Requests"
  | .internalServerError => ascii "Internal Server Error"
  | .notImplemented => ascii "Not Implemented"
  | .badGateway => ascii "Bad Gateway"
  | .serviceUnavailable => ascii "Service Unavailable"
  | .gatewayTimeout => ascii "Gateway Timeout"

def maxHeaders : ℕ := 64

/-- `http_request_t`.  `body` is `none` for a `NULL` body; the length of a body
is that of its bytes. -/
structure Request where
  method : HttpMethod
  uri : Bytes
  version : Bytes
  queryString : Bytes
  headers : List (Bytes × Bytes)
  body : Option Bytes
  contentLength : ℕ
  chunked : Bool
  ifNoneMatch : Bytes
  ifRange : Bytes
  ifModifiedSince : ℤ
  hasRange : Bool
  rangeSuffix : Bool
  rangeStart : ℤ
  rangeEnd : ℤ
  keepAlive : Bool
  expectContinue : Bool
  isWebsocketUpgrade : Bool
  websocketKey : Bytes
  websocketProtocol : Bytes
  deriving DecidableEq

def Request.zero : Request where
  method := .get
  uri := []
  version := []
  queryString := []
  headers := []
  body := none
  contentLength := 0
  chunked := false
  ifNoneMatch := []
  ifRange := []
  ifModifiedSince := 0
  hasRange := false
  rangeSuffix := false
  rangeStart := 0
  rangeEnd := 0
  keepAlive := false
  expectContinue := false
  isWebsocketUpgrade := false
  websocketKey := []
  websocketProtocol := []

/-- `request_header`: the value of the first header with this name. -/
def Request.header (request : Request) (name : Bytes) : Option Bytes :=
  (request.headers.find? fun h => strcaseeq h.1 name).map Prod.snd

/-- `http_response_t`. -/
structure Response where
  status : HttpStatus
  headers : List (Bytes × Bytes)
  body : Bytes
  keepAlive : Bool
  corsOrigin : Bytes
  deriving DecidableEq

/-- `response_set_header`: a field that is too long is cut. -/
def responseHeader (name value : Bytes) : Bytes × Bytes :=
  (name.take 255, value.take 2047)

namespace Response

def sendErrorResponse (response : Response) (status : HttpStatus) (message : Bytes) : Response :=
  let title := decimal status.code ++ ascii " " ++ status.reason
  { response with
    status := status
    headers := [responseHeader (ascii "Content-Type") (ascii "text/html")]
    body := (ascii "<html><head><title>" ++ title ++
      ascii "</title></head><body><h1>" ++ title ++ ascii "</h1><p>" ++
        message ++ ascii "</p></body></html>").take 1023
    keepAlive := false }

def sendJsonResponse (response : Response) (request : Request)
    (status : HttpStatus) (json : Bytes) : Response :=
  { response with
    status := status
    headers := [responseHeader (ascii "Content-Type") (ascii "application/json")]
    body := cString json
    keepAlive := request.keepAlive }

def sendErrorJson (response : Response) (request : Request)
    (status : HttpStatus) (message : Bytes) : Response :=
  let contentType := responseHeader (ascii "Content-Type") (ascii "application/json")
  let challenge := responseHeader (ascii "WWW-Authenticate")
    (ascii "Bearer realm=\"codo\", charset=\"UTF-8\"")
  { response with
    status := status
    headers := if status = .unauthorized then [contentType, challenge]
      else [contentType]
    body := (ascii "\x7b\"error\":\"" ++ message ++ ascii "\"\x7d").take 191
    keepAlive := request.keepAlive }

end Response

end Codo.Common
