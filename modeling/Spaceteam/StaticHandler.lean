/-
Static files (`static_handler.h`, `static_handler.cc`).

The file system and the markdown converter are parameters.  A call that throws
in `boost::filesystem` or in the converter is `none`.  Canonical paths are
lists of components; the check that the file lies in the root works on the
string of the whole path (`passesCheck`).

* `StaticHandler.passesCheck_of_inside` — the check lets every file of the
  root pass;
* `StaticHandler.confined_iff` — when nothing else is served.
-/
import Spaceteam.BasicHandlers

open RequestHandler

/-! ### The world of the handler -/

/-- `boost::filesystem::file_type`, as far as it is asked for. -/
inductive FileType where
  | notFound
  | regular
  | other
  deriving DecidableEq, Repr

/-- The file system at the time of a call: what `status` says of a path, its
canonical form, and what a stream opened on a canonical path reads (`none` for
a stream that is not good). -/
structure FileSystem where
  status : Bytes → Option FileType
  canonical : Bytes → Option (List Bytes)
  read : List Bytes → Option Bytes

/-- `markdown::Document`: the text read and `mProcessed`. -/
structure MarkdownDocument where
  text : Bytes
  mProcessed : Bool

namespace MarkdownDocument

def new : MarkdownDocument := { text := [], mProcessed := false }

/-- `read`: its result, and the document after it. -/
def read (doc : MarkdownDocument) (src : Bytes) : Bool × MarkdownDocument :=
  if doc.mProcessed then (false, doc) else (true, { doc with text := doc.text ++ src })

end MarkdownDocument

/-- `path::string()` of an absolute path. -/
def pathString : List Bytes → Bytes
  | [] => bytes "/"
  | components => components.flatMap fun c => bytes "/" ++ c

/-- `path::filename()` of an absolute path. -/
def filename (components : List Bytes) : Bytes := components.getLast?.getD (bytes "/")

/-- `path::extension()`. -/
def extension (components : List Bytes) : Bytes :=
  let name := filename components
  if name = bytes "." ∨ name = bytes ".." then []
  else
    match name.rfind (ascii '.') with
    | some pos => name.drop pos
    | none => []

/-! ### `StaticHandler` -/

/-- `StaticHandler`: `uri_prefix_` and `root_`. -/
structure StaticHandler where
  uriPrefix : Bytes
  root : Bytes
  deriving DecidableEq, Repr

namespace StaticHandler

/-- `GetMimeType`. -/
def getMimeType (ext : Bytes) : Bytes :=
  if ext = bytes ".gif" then bytes "image/gif"
  else if ext = bytes ".htm" then bytes "text/html"
  else if ext = bytes ".html" then bytes "text/html"
  else if ext = bytes ".jpg" then bytes "image/jpeg"
  else if ext = bytes ".jpeg" then bytes "image/jpeg"
  else if ext = bytes ".png" then bytes "image/png"
  else bytes "text/plain"

/-- The answer with the contents of a file. -/
def serve (response : Response) (body ext : Bytes) : Response :=
  ((response.setBody body).addHeader (bytes "Content-Type") (getMimeType ext)).setStatus .ok

/-- `relative_path`: the root and what follows the prefix in the URI. -/
def relativePath (handler : StaticHandler) (uri : Bytes) : Bytes :=
  handler.root ++ uri.drop handler.uriPrefix.length

/-- `absolute_path.string().find(dir) != npos`, `dir` being the name of the root. -/
def passesCheck (absolutePath root : List Bytes) : Bool :=
  (pathString absolutePath).contains (filename root)

variable (fs : FileSystem) (writeHtml : Bytes → Option Bytes)

/-- What comes of the relative path. -/
def answerPath (handler : StaticHandler) (path : Bytes) (response : Response) :
    Outcome StaticHandler :=
  match fs.status path with
  | none => .threw handler
  | some type =>
    if type ≠ .notFound ∧ type = .regular then
      match fs.canonical path, fs.canonical handler.root with
      | some absolutePath, some root =>
        if passesCheck absolutePath root then
          match fs.read absolutePath with
          | none => .returned .ok (NotFoundHandler.notFound response) handler
          | some contents =>
            let ext := extension absolutePath
            if ext = bytes ".md" then
              match MarkdownDocument.new.read contents with
              | (false, _) => .returned .error response handler
              | (true, doc) =>
                match writeHtml doc.text with
                | none => .threw handler
                | some html => .returned .ok (serve response html (bytes ".html")) handler
            else .returned .ok (serve response contents ext) handler
        else .returned .ok (NotFoundHandler.notFound response) handler
      | _, _ => .threw handler
    else .returned .ok (NotFoundHandler.notFound response) handler

def handleRequest (handler : StaticHandler) (request : Request) (response : Response) :
    Outcome StaticHandler :=
  let uri := request.uri
  if extendsPrefix uri handler.uriPrefix then
    handler.answerPath fs writeHtml (handler.relativePath uri) response
  else .returned .error response handler

/-! ### What is served -/

/-- The URI names a file that can be sent: what follows the prefix, appended to
the root, is a regular file with this canonical path, and readable. -/
def NamesFile (handler : StaticHandler) (request : Request) (file : List Bytes) : Prop :=
  extendsPrefix request.uri handler.uriPrefix = true ∧
    fs.status (handler.relativePath request.uri) = some .regular ∧
    fs.canonical (handler.relativePath request.uri) = some file ∧
    ∃ contents, fs.read file = some contents ∧
      (extension file = bytes ".md" → ∃ html, writeHtml contents = some html)

/-- `HandleRequest` answers OK with the contents of the file. -/
def ServesFile (handler : StaticHandler) (request : Request) (response : Response)
    (file : List Bytes) : Prop :=
  (∃ response', handleRequest fs writeHtml handler request response =
      .returned .ok response' handler ∧ response'.getResponseCode = .ok) ∧
    fs.canonical (handler.relativePath request.uri) = some file

/-- The path is the root's, followed by one or more components. -/
def Inside (root file : List Bytes) : Prop := ∃ inner, inner ≠ [] ∧ file = root ++ inner

/-- Whatever is served lies in the root. -/
def Confined (handler : StaticHandler) (request : Request) (response : Response) : Prop :=
  ∀ file, ServesFile fs writeHtml handler request response file →
    ∃ root, fs.canonical handler.root = some root ∧ Inside root file

/-- The root's name occurs in the path of everything in the root. -/
theorem passesCheck_of_inside {root file : List Bytes} (h : Inside root file) :
    passesCheck file root = true := by
  obtain ⟨inner, hinner, rfl⟩ := h
  rw [passesCheck, Bytes.contains_iff]
  obtain ⟨c, inner, rfl⟩ := List.exists_cons_of_ne_nil hinner
  have hstring : ∀ components d, pathString (components ++ [d] ++ (c :: inner)) =
      components.flatMap (fun e => bytes "/" ++ e) ++ (bytes "/" ++ d) ++
        (c :: inner).flatMap fun e => bytes "/" ++ e := by
    intro components d
    rw [pathString]
    · simp
    · simp
  rcases root.eq_nil_or_concat' with rfl | ⟨components, d, rfl⟩
  · -- the name of the root directory is a slash
    exact ⟨[], c ++ inner.flatMap fun e => bytes "/" ++ e, by simp [pathString, filename]⟩
  · rw [hstring]
    refine ⟨components.flatMap (fun e => bytes "/" ++ e) ++ bytes "/",
      (c :: inner).flatMap fun e => bytes "/" ++ e, ?_⟩
    simp [filename]

/-- **What a call can do**: refuse the URI, throw, answer that there is no such
file, or send the named file. -/
theorem handleRequest_cases (handler : StaticHandler) (request : Request)
    (response : Response) :
    (extendsPrefix request.uri handler.uriPrefix = false ∧
      handleRequest fs writeHtml handler request response = .returned .error response handler) ∨
    (extendsPrefix request.uri handler.uriPrefix = true ∧
      (handleRequest fs writeHtml handler request response = .threw handler ∨
        handleRequest fs writeHtml handler request response =
          .returned .ok (NotFoundHandler.notFound response) handler)) ∨
    ∃ file root body ext, NamesFile fs writeHtml handler request file ∧
      fs.canonical handler.root = some root ∧ passesCheck file root = true ∧
      handleRequest fs writeHtml handler request response =
        .returned .ok (serve response body ext) handler := by
  generalize hout : handleRequest fs writeHtml handler request response = out
  unfold handleRequest answerPath at hout
  simp only at hout
  split at hout
  next hext =>
    right
    split at hout
    next => exact .inl ⟨hext, .inl hout.symm⟩
    next type hstatus =>
      split at hout
      next htype =>
        rw [htype.2] at hstatus
        split at hout
        next file root hfile hroot =>
          split at hout
          next hcheck =>
            split at hout
            next => exact .inl ⟨hext, .inr hout.symm⟩
            next contents hread =>
              split at hout
              next =>
                -- a fresh document is never refused
                simp only [MarkdownDocument.read, MarkdownDocument.new, Bool.false_eq_true,
                  if_false, List.nil_append] at hout
                split at hout
                next => exact .inl ⟨hext, .inl hout.symm⟩
                next html hhtml =>
                  exact .inr ⟨file, root, html, bytes ".html",
                    ⟨hext, hstatus, hfile, contents, hread, fun _ => ⟨html, hhtml⟩⟩,
                    hroot, hcheck, hout.symm⟩
              next hmd =>
                exact .inr ⟨file, root, contents, extension file,
                  ⟨hext, hstatus, hfile, contents, hread, fun h => absurd h hmd⟩,
                  hroot, hcheck, hout.symm⟩
          next => exact .inl ⟨hext, .inr hout.symm⟩
        next => exact .inl ⟨hext, .inl hout.symm⟩
      next => exact .inl ⟨hext, .inr hout.symm⟩
  next hext => exact .inl ⟨by simpa using hext, hout.symm⟩

/-- The named file is sent when the root's name occurs in its path. -/
theorem handleRequest_of_namesFile {handler : StaticHandler} {request : Request}
    {file root : List Bytes} (h : NamesFile fs writeHtml handler request file)
    (hroot : fs.canonical handler.root = some root) (hcheck : passesCheck file root = true)
    (response : Response) :
    ∃ body ext, handleRequest fs writeHtml handler request response =
      .returned .ok (serve response body ext) handler := by
  obtain ⟨hext, hstatus, hfile, contents, hread, hmd⟩ := h
  unfold handleRequest answerPath
  simp only [hext, if_true, hstatus, hfile, hroot, hcheck, hread, ne_eq, reduceCtorEq,
    not_false_eq_true, and_self, MarkdownDocument.read, MarkdownDocument.new,
    Bool.false_eq_true, if_false, List.nil_append]
  split_ifs with hmd'
  · obtain ⟨html, hhtml⟩ := hmd hmd'
    rw [hhtml]
    exact ⟨html, _, rfl⟩
  · exact ⟨contents, _, rfl⟩

/-- **What is served**: the named file, if the root's name occurs in its path. -/
theorem servesFile_iff {handler : StaticHandler} {request : Request} {response : Response}
    {file : List Bytes} :
    ServesFile fs writeHtml handler request response file ↔
      NamesFile fs writeHtml handler request file ∧
        ∃ root, fs.canonical handler.root = some root ∧ passesCheck file root = true := by
  constructor
  · rintro ⟨⟨response', hout, hcode⟩, hfile⟩
    rcases handleRequest_cases fs writeHtml handler request response with
      ⟨-, h⟩ | ⟨-, h | h⟩ | ⟨file', root, body, ext, hnames, hroot, hcheck, -⟩
    · rw [h] at hout
      cases hout
    · rw [h] at hout
      cases hout
    · -- a 404 is no answer with the contents of a file
      rw [h] at hout
      obtain rfl : NotFoundHandler.notFound response = response' := by simpa using hout
      cases hcode
    · obtain rfl : file' = file := Option.some_inj.mp (hnames.2.2.1.symm.trans hfile)
      exact ⟨hnames, root, hroot, hcheck⟩
  · rintro ⟨hnames, root, hroot, hcheck⟩
    obtain ⟨body, ext, hout⟩ :=
      handleRequest_of_namesFile fs writeHtml hnames hroot hcheck response
    exact ⟨⟨_, hout, rfl⟩, hnames.2.2.1⟩

/-- **When the handler is confined**: if the root's name occurs in the path of
the file that is named, the file lies in the root. -/
theorem confined_iff {handler : StaticHandler} {request : Request} {response : Response} :
    Confined fs writeHtml handler request response ↔
      ∀ file root, NamesFile fs writeHtml handler request file →
        fs.canonical handler.root = some root →
        (pathString file).contains (filename root) = true → Inside root file := by
  constructor
  · intro h file root hnames hroot hcheck
    obtain ⟨root', hroot', hinside⟩ := h file
      ((servesFile_iff fs writeHtml).mpr ⟨hnames, root, hroot, hcheck⟩)
    obtain rfl : root = root' := Option.some_inj.mp (hroot.symm.trans hroot')
    exact hinside
  · intro h file hserves
    obtain ⟨hnames, root, hroot, hcheck⟩ := (servesFile_iff fs writeHtml).mp hserves
    exact ⟨root, hroot, h file root hnames hroot hcheck⟩

/-- A file next to the root whose name begins with the root's. -/
def siblingFileSystem : FileSystem where
  status path := if path = bytes "/srv/www/../www-private/key" then some .regular
    else some .notFound
  canonical path :=
    if path = bytes "/srv/www/../www-private/key" then
      some [bytes "srv", bytes "www-private", bytes "key"]
    else if path = bytes "/srv/www" then some [bytes "srv", bytes "www"]
    else none
  read file := if file = [bytes "srv", bytes "www-private", bytes "key"] then some (bytes "secret")
    else none

theorem not_confined_sibling :
    (Request.parse (bytes "GET /static/../www-private/key HTTP/1.1\r\n\r\n")).parsedStatus =
      .good ∧
    ¬Confined siblingFileSystem some ⟨bytes "/static", bytes "/srv/www"⟩
      (Request.parse (bytes "GET /static/../www-private/key HTTP/1.1\r\n\r\n"))
      (.fresh .ok) := by
  refine ⟨by decide +kernel, fun h => ?_⟩
  obtain ⟨root, hroot, inner, -, hfile⟩ :=
    h [bytes "srv", bytes "www-private", bytes "key"] ⟨⟨_, rfl, rfl⟩, by decide +kernel⟩
  obtain rfl : [bytes "srv", bytes "www"] = root := by
    have hcanonical : siblingFileSystem.canonical (bytes "/srv/www") =
      some [bytes "srv", bytes "www"] := by decide +kernel
    exact Option.some_inj.mp (hcanonical.symm.trans hroot)
  have hsecond : some (bytes "www-private") = some (bytes "www") := congrArg (fun l => l[1]?) hfile
  exact absurd hsecond (by decide)

end StaticHandler
