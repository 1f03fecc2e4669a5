/-
Objects of a bucket (`s3_handler.h`, `s3_handler.cc`).

The command that `popen` runs is a parameter: what it prints, or `none` when
the pipe cannot be opened.  The output is read with `fgets` into a buffer of
128 bytes and appended as C strings, so that a line is cut at a NUL byte.
-/
import Spaceteam.RequestHandler

open RequestHandler

/-- `S3Handler`: `uri_prefix_` and `bucket_`. -/
structure S3Handler where
  uriPrefix : Bytes
  bucket : Bytes
  deriving DecidableEq, Repr

namespace S3Handler

/-- `fgets`: at most `n` bytes, up to and including the end of a line. -/
def fgets : ℕ → Bytes → Bytes × Bytes
  | 0, s => ([], s)
  | _ + 1, [] => ([], [])
  | n + 1, c :: s =>
    if c = ascii '\n' then ([c], s) else (c :: (fgets n s).1, (fgets n s).2)

theorem length_fgets_le (n : ℕ) (s : Bytes) : (fgets n s).2.length ≤ s.length := by
  induction s generalizing n with
  | nil => cases n <;> simp [fgets]
  | cons c s ih =>
    rcases n with _ | n
    · simp [fgets]
    · rw [fgets]
      split_ifs
      · simp
      · exact Nat.le_succ_of_le (ih n)

theorem length_fgets_lt (n : ℕ) (c : UInt8) (s : Bytes) :
    (fgets (n + 1) (c :: s)).2.length < (c :: s).length := by
  rw [fgets]
  split_ifs
  · simp
  · exact Nat.lt_succ_of_le (length_fgets_le n s)

/-- The loop of `GetS3Object` over what the command prints. -/
def readPipe : Bytes → Bytes
  | [] => []
  | c :: s => Bytes.cString (fgets 127 (c :: s)).1 ++ readPipe (fgets 127 (c :: s)).2
termination_by s => s.length
decreasing_by exact length_fgets_lt 126 c s

/-- The command passed to `popen`. -/
def command (handler : S3Handler) (key : Bytes) : Bytes :=
  bytes "nodejs get-s3-object.js " ++ handler.bucket ++ bytes " " ++ key

/-- `GetS3Object`; `none` when it throws. -/
def getS3Object (popen : Bytes → Option Bytes) (handler : S3Handler) (key : Bytes) :
    Option Bytes := (popen (handler.command key)).map readPipe

/-- What comes of the key. -/
def answerKey (popen : Bytes → Option Bytes) (handler : S3Handler) (key : Bytes)
    (response : Response) : Outcome S3Handler :=
  match getS3Object popen handler key with
  | none => .threw handler
  | some object =>
    .returned .ok (((response.setBody object).addHeader (bytes "Content-Type")
      (bytes "text/html")).setStatus .ok) handler

def handleRequest (popen : Bytes → Option Bytes) (handler : S3Handler) (request : Request)
    (response : Response) : Outcome S3Handler :=
  let uri := request.uri
  if extendsPrefix uri handler.uriPrefix then
    handler.answerKey popen (uri.drop (handler.uriPrefix.length + 1)) response
  else .returned .error response handler

end S3Handler
