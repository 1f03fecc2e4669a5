/-
The command line of a request to a bucket.

The key is what is left of the URI, and it goes into the command as it is.  A
URI holds no blank and no control byte, but any other byte that is active in a
shell.

* `S3Handler.runsCommand_iff` — the command a request runs;
* `Connection.readsAs_iff` — when a shell reads it as the four words it is put
  together from.
-/
import Spaceteam.Dispatch
import Spaceteam.S3Handler
import Spaceteam.Shell

open RequestHandler

namespace S3Handler

/-- The command passed to `popen`: the call throws where it cannot be run. -/
def RunsCommand (handler : S3Handler) (request : Request) (cmd : Bytes) : Prop :=
  ∀ (popen : Bytes → Option Bytes) (response : Response),
    popen cmd = none → handleRequest popen handler request response = .threw handler

/-- The key of a URI. -/
def key (handler : S3Handler) (uri : Bytes) : Bytes := uri.drop (handler.uriPrefix.length + 1)

/-- **The command a request runs**, if its URI goes on behind the prefix. -/
theorem runsCommand_iff {handler : S3Handler} {request : Request} {cmd : Bytes} :
    handler.RunsCommand request cmd ↔
      extendsPrefix request.uri handler.uriPrefix = true ∧
        cmd = handler.command (handler.key request.uri) := by
  constructor
  · intro h
    -- only this command fails
    have hthrew := h (fun c => if c = cmd then none else some []) (.fresh .ok) (by simp)
    have hext : extendsPrefix request.uri handler.uriPrefix = true := by
      by_contra hno
      simp [handleRequest, hno] at hthrew
    refine ⟨hext, ?_⟩
    by_contra hne
    have hrun : ¬handler.command (request.uri.drop (handler.uriPrefix.length + 1)) = cmd :=
      fun heq => hne heq.symm
    simp [handleRequest, answerKey, hext, getS3Object, hrun] at hthrew
  · rintro ⟨hext, rfl⟩ popen response hpopen
    have hkey : popen (handler.command (request.uri.drop (handler.uriPrefix.length + 1))) = none :=
      hpopen
    simp [handleRequest, answerKey, getS3Object, hext, hkey]

/-- The bytes of a bucket name. -/
def BucketByte (b : UInt8) : Prop :=
  (ascii 'a' ≤ b ∧ b ≤ ascii 'z') ∨ (ascii 'A' ≤ b ∧ b ≤ ascii 'Z') ∨
    (ascii '0' ≤ b ∧ b ≤ ascii '9') ∨ b = ascii '-' ∨ b = ascii '.'

instance : DecidablePred BucketByte := fun _ => inferInstanceAs (Decidable (_ ∨ _))

/-- The bytes of a URI that are active in a shell wherever they stand. -/
def metaBytes : Bytes :=
  [ascii ';', ascii '&', ascii '|', ascii '$', Shell.backquote, ascii '(', ascii ')', ascii '<',
    ascii '>', ascii '\'', ascii '"', ascii '\\', ascii '*', ascii '?', ascii '[']

/-- A key that is a word of its own, in which no byte is active. -/
structure IsPlainKey (k : Bytes) : Prop where
  ne_nil : k ≠ []
  noMeta : ∀ b ∈ k, b ∉ metaBytes
  front : k.head? ≠ some (ascii '#') ∧ k.head? ≠ some (ascii '~')

theorem ordinaryByte_of_bucketByte :
    ∀ b : UInt8, BucketByte b → Shell.OrdinaryByte b ∧ b ∉ Shell.fronts := by
  decide +kernel

theorem ordinaryByte_iff_of_uriByte :
    ∀ b : UInt8, UriByte b → (Shell.OrdinaryByte b ↔ b ∉ metaBytes) := by
  decide +kernel

theorem ordinaryWord_bucket {bucket : Bytes} (hbucket : ∀ b ∈ bucket, BucketByte b) :
    Shell.OrdinaryWord bucket ↔ bucket ≠ [] := by
  constructor
  · exact fun h => h.ne_nil
  · intro hne
    refine ⟨hne, fun b hb => (ordinaryByte_of_bucketByte b (hbucket b hb)).1, fun b hb => ?_⟩
    exact (ordinaryByte_of_bucketByte b (hbucket b (List.mem_of_mem_head? hb))).2

/-- A key of a URI is read as it stands if it is plain. -/
theorem ordinaryWord_key {k : Bytes} (huri : ∀ b ∈ k, UriByte b) :
    Shell.OrdinaryWord k ↔ IsPlainKey k := by
  have hfronts : ∀ b, b ∈ Shell.fronts ↔ b = ascii '#' ∨ b = ascii '~' := by
    intro b
    simp [Shell.fronts]
  constructor
  · rintro ⟨hne, hordinary, hfront⟩
    refine ⟨hne, fun b hb => ?_, ?_, ?_⟩
    · exact (ordinaryByte_iff_of_uriByte b (huri b hb)).mp (hordinary b hb)
    · exact fun hhead => hfront _ hhead ((hfronts _).mpr (.inl rfl))
    · exact fun hhead => hfront _ hhead ((hfronts _).mpr (.inr rfl))
  · rintro ⟨hne, hmeta, hhash, htilde⟩
    refine ⟨hne, fun b hb => (ordinaryByte_iff_of_uriByte b (huri b hb)).mpr (hmeta b hb), ?_⟩
    intro b hhead hb
    rcases (hfronts b).mp hb with rfl | rfl
    · exact hhash hhead
    · exact htilde hhead

/-- The words of a command. -/
def words (handler : S3Handler) (k : Bytes) : List Bytes :=
  [bytes "nodejs", bytes "get-s3-object.js", handler.bucket, k]

/-- The first two words are fixed; an empty bucket is no word at all. -/
theorem readsAs_command_iff {handler : S3Handler} {k : Bytes}
    (hbucket : ∀ b ∈ handler.bucket, BucketByte b) :
    Shell.ReadsAs (handler.command k) (handler.words k) ↔
      handler.bucket ≠ [] ∧ Shell.OrdinaryWord k := by
  constructor
  · intro h
    have hwords := Shell.ordinaryWord_of_readsAs h
    exact ⟨(hwords handler.bucket (by simp [words])).ne_nil, hwords k (by simp [words])⟩
  · rintro ⟨hne, hk⟩
    have hblank : ascii ' ' ∈ Shell.blanks := by decide
    have hnodejs : Shell.ReadsAs (bytes "nodejs") [bytes "nodejs"] := by decide
    have hscript : Shell.ReadsAs (bytes "get-s3-object.js") [bytes "get-s3-object.js"] := by decide
    have hcommand : handler.command k = bytes "nodejs" ++ ascii ' ' ::
        (bytes "get-s3-object.js" ++ ascii ' ' :: (handler.bucket ++ ascii ' ' :: k)) := by
      simp [command, bytes]
    rw [hcommand]
    -- from the last word to the first
    have hkey := (Shell.readsAs_singleton hk).append ((ordinaryWord_bucket hbucket).mpr hne) hblank
    exact (hkey.append (Shell.ordinaryWord_of_readsAs hscript _ (by simp)) hblank).append
      (Shell.ordinaryWord_of_readsAs hnodejs _ (by simp)) hblank

end S3Handler

namespace Connection

open S3Handler

variable {H : Type*} (handleRequest : HandleRequest H) (garbage : ResponseCode)
  (server : Server H) (received : Bytes)

/-- **When the command is read as it is meant**: the bucket has a name, and the
key is a word without active bytes. -/
theorem readsAs_iff (handler : S3Handler) (hbucket : ∀ b ∈ handler.bucket, BucketByte b)
    (call : Bytes × H × Request)
    (hcall : call ∈ handled (handleRead handleRequest garbage server false received).events)
    (cmd : Bytes) (hcmd : handler.RunsCommand call.2.2 cmd) :
    Shell.ReadsAs cmd (handler.words (handler.key call.2.2.uri)) ↔
      handler.bucket ≠ [] ∧ IsPlainKey (handler.key call.2.2.uri) := by
  obtain ⟨-, rfl⟩ := runsCommand_iff.mp hcmd
  have huri : ∀ b ∈ handler.key call.2.2.uri, UriByte b := by
    obtain ⟨-, hrequest⟩ := (mem_handled_handleRead handleRequest garbage server received).mp hcall
    rw [hrequest]
    exact fun b hb => (Request.spelled_parse received).uriBytes b (List.mem_of_mem_drop hb)
  rw [readsAs_command_iff hbucket, ordinaryWord_key huri]

/-- A bucket below `/static`. -/
theorem readsAs_iff_static :
    Shell.ReadsAs (bytes "nodejs get-s3-object.js b a")
        (S3Handler.words ⟨bytes "/static", bytes "b"⟩
          (S3Handler.key ⟨bytes "/static", bytes "b"⟩
            (Request.parseWith (bytes "GET /static/a HTTP/1.1\r\n\r\n") (some .new)).uri)) ↔
      bytes "b" ≠ [] ∧ IsPlainKey (S3Handler.key ⟨bytes "/static", bytes "b"⟩
        (Request.parseWith (bytes "GET /static/a HTTP/1.1\r\n\r\n") (some .new)).uri) :=
  readsAs_iff (fun h _ response => .returned .ok response h) .ok
    (prefixServer (bytes "/static")) (bytes "GET /static/a HTTP/1.1\r\n\r\n")
    ⟨bytes "/static", bytes "b"⟩ (by decide +kernel)
    (bytes "/static", true, Request.parseWith (bytes "GET /static/a HTTP/1.1\r\n\r\n") (some .new))
    (by rw [handled_handleRead_of_select _ _ _ select_static]; exact List.mem_cons_self)
    (bytes "nodejs get-s3-object.js b a")
    (runsCommand_iff.mpr ⟨by decide +kernel, by decide +kernel⟩)

/-- A semicolon in the key ends the command. -/
theorem not_readsAs_semicolon :
    ∃ call ∈ handled (handleRead (fun h _ response => .returned .ok response h) .ok
        (prefixServer (bytes "/s3")) false (bytes "GET /s3/a;b HTTP/1.1\r\n\r\n")).events,
      call.2.2.parsedStatus = .good ∧ call.1 = bytes "/s3" ∧
      S3Handler.RunsCommand ⟨bytes "/s3", bytes "b"⟩ call.2.2
        (bytes "nodejs get-s3-object.js b a;b") ∧
      S3Handler.key ⟨bytes "/s3", bytes "b"⟩ call.2.2.uri = bytes "a;b" ∧
      ¬Shell.ReadsAs (bytes "nodejs get-s3-object.js b a;b")
        (S3Handler.words ⟨bytes "/s3", bytes "b"⟩ (bytes "a;b")) := by
  have hselect : select (prefixServer (bytes "/s3")).pathToHandler
      (Request.parseWith (bytes "GET /s3/a;b HTTP/1.1\r\n\r\n") (some .new)) =
      .handler (bytes "/s3") true := by
    decide +kernel
  refine ⟨(bytes "/s3", true, Request.parseWith (bytes "GET /s3/a;b HTTP/1.1\r\n\r\n") (some .new)),
    ?_, by decide +kernel, rfl, runsCommand_iff.mpr ⟨by decide +kernel, by decide +kernel⟩,
    by decide +kernel, by decide +kernel⟩
  rw [handled_handleRead_of_select _ _ _ hselect]
  exact List.mem_cons_self

end Connection
