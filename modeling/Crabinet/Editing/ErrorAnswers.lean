import Crabinet.Share.StagedUploads

/-!
# Errors of a request

An error of the server is sent as a status and a code, and the client tells its kinds apart by the
status.
-/

namespace Crabinet.Editing

open Crabinet.Filesystem

/-- `AppError`. -/
inductive AppError where
  | unauthorized | authenticationFailed | forbidden | reauthenticationRequired | tooManyRequests
  | notFound | notReady | invalidRequest | conflict | tooLarge | pathTooDeep
  | shareTooLargeToMeasure | shareTooDeepToMeasure | busy | unsupportedMedia | featureDisabled
  | internal
deriving DecidableEq, Repr

/-- `public_parts`: the status, the code and the message. -/
def AppError.publicParts : AppError → ℕ × String × String
  | unauthorized => (401, "unauthorized", "Authentication required")
  | authenticationFailed => (401, "authentication_failed", "Authentication failed")
  | forbidden => (403, "forbidden", "Request forbidden")
  | reauthenticationRequired => (403, "reauthentication_required", "Sign in again to continue")
  | tooManyRequests => (429, "rate_limited", "Too many requests")
  | notFound => (404, "not_found", "Resource not found")
  | notReady => (503, "not_ready", "Service is not ready")
  | invalidRequest => (400, "invalid_request", "Request was invalid")
  | conflict => (409, "conflict", "Resource state changed; restart the operation")
  | tooLarge => (413, "too_large", "Request exceeds a configured limit")
  | pathTooDeep => (400, "path_too_deep", "Folders can be nested at most 64 levels deep")
  | shareTooLargeToMeasure =>
    (507, "share_too_large_to_measure", "The shared folder has too many items to check its quota")
  | shareTooDeepToMeasure =>
    (507, "share_too_deep_to_measure",
      "The shared folder has folders nested too deeply to check its quota")
  | busy => (429, "busy", "Too many concurrent operations")
  | unsupportedMedia => (415, "unsupported_media_type", "Resource is not supported as text")
  | featureDisabled => (404, "feature_disabled", "This feature is disabled on this server")
  | internal => (500, "internal_error", "Internal service error")

/-- `ApiErrorKind`. -/
inductive ApiErrorKind where
  | unauthorized | forbidden | notFound | conflict | rateLimited | invalidRequest
  | invalidResponse | network | aborted | server
deriving DecidableEq, Repr

/-- `ApiError`, as far as the editor reads it. -/
structure ApiError where
  kind : ApiErrorKind
  status : Option ℕ
  code : Option String
  retryable : Bool
deriving DecidableEq, Repr

/-- `responseError`, of an answer whose body is the server's. -/
def responseError (status : ℕ) (code : String) : ApiError where
  kind :=
    if status = 401 then .unauthorized
    else if status = 403 then .forbidden
    else if status = 404 then .notFound
    else if status = 409 then .conflict
    else if status = 429 then .rateLimited
    else .server
  status := some status
  code := some code
  retryable := status = 429 || status = 502 || status = 503 || status = 504

/-- What the client makes of an error of the server. -/
def AppError.received (error : AppError) : ApiError :=
  responseError error.publicParts.1 error.publicParts.2.1

/-- The errors of publications. -/
def AppError.ofPublication : Share.AppError → AppError
  | .forbidden => forbidden
  | .notFound => notFound
  | .invalidRequest => invalidRequest
  | .conflict => conflict
  | .tooLarge => tooLarge
  | .pathTooDeep => pathTooDeep
  | .shareTooLargeToMeasure => shareTooLargeToMeasure
  | .shareTooDeepToMeasure => shareTooDeepToMeasure
  | .internal => internal

/-- What the client makes of an error of the file system. -/
def fsReceived (code : FsErrorCode) : ApiError :=
  (AppError.ofPublication (Share.mapMutationFsError code)).received

end Crabinet.Editing
