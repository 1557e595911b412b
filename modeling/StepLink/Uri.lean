import StepLink.Path
import StepLink.Text.Bytes

/-! URIs of documents. A URI names a path of this machine if its path is hierarchical and its host is missing
or `localhost`; its scheme does not matter, and neither do its query and its fragment. Schemes of the web and
`file` have rules of their own: a backslash separates segments, and a host may be percent-coded. -/

namespace StepLink

/-- A URI, as far as the path that it names is concerned. -/
structure Uri where
  host : Option Text
  /-- The segments of the path, still percent-coded; an opaque URI has none. -/
  segments : Option (List Text)
  deriving DecidableEq, Repr

namespace Uri

/-- The schemes that are read differently. -/
inductive Scheme where
  | file
  | web
  | other
  deriving DecidableEq, Repr

/-- The class of a scheme. -/
def Scheme.ofText (t : Text) : Scheme :=
  let name := String.ofList (t.map Char.toLower)
  if name = "file" then file
  else if ["http", "https", "ws", "wss", "ftp"].contains name then web
  else other

/-- Drop control characters and spaces around a URI, and tabs and line breaks in it. -/
def clean (t : Text) : Text :=
  let isOuter (c : Char) : Bool := c.toNat ≤ 0x20
  let inner := ((t.dropWhile isOuter).reverse.dropWhile isOuter).reverse
  inner.filter fun c => c != '\t' && c != '\n' && c != '\r'

/-- Split a URI after the colon of its scheme. -/
def splitScheme? (t : Text) : Option (Scheme × Text) :=
  let isInner (c : Char) : Bool := c.isAlphanum || c == '+' || c == '-' || c == '.'
  if t.head?.any Char.isAlpha then
    match t.dropWhile isInner with
    | ':' :: rest => some (.ofText (t.takeWhile isInner), rest)
    | _ => none
  else none

def Scheme.separates (s : Scheme) (c : Char) : Bool :=
  c == '/' || (c == '\\' && s != .other)

def isTail (c : Char) : Bool :=
  c == '?' || c == '#'

/-- A letter with a colon or a bar: the name of a drive. -/
def isDrive : Text → Bool
  | [letter, mark] => letter.isAlpha && (mark == ':' || mark == '|')
  | _ => false

/-- The name of a drive in its usual form. -/
def isPlainDrive (t : Text) : Bool :=
  isDrive t && t.getLast? == some ':'

def isForbidden (c : Char) : Bool :=
  c.toNat ≤ 0x20 || c.toNat == 0x7f || "#/:<>?@[\\]^|%".toList.contains c

/-- The name of a host, if it is one; only hosts of a scheme with rules of its own are percent-coded. -/
def Scheme.host? (s : Scheme) (t : Text) : Option Text :=
  if t.head? == some '[' && t.getLast? == some ']' then some t
  else
    let name : Option Text := match s with
      | .other => some t
      | _ => (Text.percentDecode? t).map fun name => name.map Char.toLower
    name.filter fun name => !name.any fun c => isForbidden c && (s != .other || c != '%')

/-- The text after the last character that satisfies a test, or all of it. -/
def afterLast (test : Char → Bool) (t : Text) : Text :=
  (t.reverse.takeWhile fun c => !test c).reverse

/-- The number of a port, which may be missing after its colon. -/
def isPort (t : Text) : Bool :=
  t.all Char.isDigit && t.foldl (fun n c => n * 10 + (c.toNat - '0'.toNat)) 0 < 65536

/-- The host of an authority: what stands between the user and the port. Only a scheme without rules of its own
may leave everything out. -/
def Scheme.authority? (s : Scheme) (t : Text) : Option (Option Text) :=
  let place := afterLast (· == '@') t
  let inBrackets := place.head? == some '['
  let name := if inBrackets then place.takeWhile (· != ']') ++ [']'] else place.takeWhile (· != ':')
  let port := match place.drop name.length with
    | [] => some []
    | ':' :: digits => some digits
    | _ => none
  if port.any isPort then
    if name.isEmpty then if s = .other && t.isEmpty then some none else none
    else (s.host? name).map some
  else none

def Scheme.split (s : Scheme) (t : Text) : List Text :=
  Path.segments (t.map fun c => if s.separates c then '/' else c)

/-- A segment without the coded form of its dots. -/
def decodeDots : Text → Text
  | '%' :: '2' :: e :: t => if e == 'e' || e == 'E' then '.' :: decodeDots t else '%' :: decodeDots ('2' :: e :: t)
  | c :: t => c :: decodeDots t
  | [] => []

/-- Resolve the segments `.` and `..`; `above` holds the segments before, the last one first. The name of a
drive is not left by `..`. -/
def Scheme.resolve (s : Scheme) (above : List Text) : List Text → List Text
  | [] => above.reverse
  | segment :: rest =>
    let dots := decodeDots segment
    let push (above : List Text) : List Text := if rest.isEmpty then [] :: above else above
    if dots = ['.', '.'] then
      let staying := s == .file && above.length == 1 && above.all isPlainDrive
      resolve s (push (if staying then above else above.tail)) rest
    else if dots = ['.'] then resolve s (push above) rest
    else if s = .file && above.isEmpty && isDrive segment then
      resolve s ((segment.take 1 ++ [':']) :: above) rest
    else resolve s (segment :: above) rest

/-- The segments of a path that starts with a separator; a file has no empty ones in front. -/
def Scheme.segments (s : Scheme) (t : Text) : List Text :=
  let all := s.resolve [] (s.split (t.drop 1))
  match s with
  | .file =>
    match all.dropWhile List.isEmpty with
    | [] => [[]]
    | below => below
  | _ => all

/-- Read what follows `file:`. -/
def ofFile? (t : Text) : Option Uri :=
  let path (t : Text) : Option (List Text) := some (Scheme.file.segments ('/' :: t))
  match t.map fun c => if c = '\\' then '/' else c with
  | '/' :: '/' :: t =>
    let name := t.takeWhile (· != '/')
    if isDrive name then some ⟨none, path t⟩
    else if name.isEmpty then some ⟨none, path (t.drop 1)⟩
    else (Scheme.file.host? name).map fun host =>
      let segments := path (t.drop (name.length + 1))
      let inDrive := (segments.bind List.head?).any isPlainDrive
      ⟨if host = "localhost".toList || inDrive then none else some host, segments⟩
  | '/' :: t => some ⟨none, path t⟩
  | t => some ⟨none, path t⟩

/-- Read what follows the scheme of a web address. -/
def ofWeb? (t : Text) : Option Uri :=
  let t := t.dropWhile Scheme.web.separates
  let place := t.takeWhile fun c => !Scheme.web.separates c
  (Scheme.web.authority? place).map fun host => ⟨host, some (Scheme.web.segments (t.drop place.length))⟩

/-- Read what follows any other scheme. -/
def ofOther? : Text → Option Uri
  | '/' :: '/' :: t =>
    let place := t.takeWhile (· != '/')
    let path := t.drop place.length
    (Scheme.other.authority? place).map fun host =>
      ⟨host, if path.isEmpty then none else some (Scheme.other.segments path)⟩
  | '/' :: t => some ⟨none, some (Scheme.other.segments ('/' :: t))⟩
  | _ => some ⟨none, none⟩

def ofText? (t : Text) : Option Uri := do
  let (scheme, rest) ← splitScheme? (clean t)
  let rest := rest.takeWhile fun c => !isTail c
  match scheme with
  | .file => ofFile? rest
  | .web => ofWeb? rest
  | .other => ofOther? rest

/-- A path that ends in the name of a drive gets a separator after it. -/
def closeDrive (t : Text) : Text :=
  if t.length > 2 && isDrive (t.drop (t.length - 2)) then t ++ ['/'] else t

/-- The path that a URI names. -/
def path? (u : Uri) : Option Path := do
  let segments ← u.segments
  if u.host.any (· != "localhost".toList) then none
  let names ← segments.mapM Text.percentDecode?
  some ⟨closeDrive (names.flatMap fun name => '/' :: name)⟩

def isCoded (c : Char) : Bool :=
  c.toNat < 0x20 || 0x7f ≤ c.toNat || " \"<>#?/%\\".toList.contains c || c.toNat == 0x60 || c.toNat == 0x7b
    || c.toNat == 0x7d

def component : Component → Text
  | .name t => Text.percentEncode isCoded t
  | .parent => ['.', '.']
  | .current => ['.']
  | .root => []

/-- The URI of an absolute path, as it is written. -/
def ofPath (p : Path) : Text :=
  let below := p.components.drop 1
  "file://".toList ++ if below.isEmpty then ['/'] else below.flatMap fun c => '/' :: component c

end Uri

end StepLink
