/-
Access tokens and what they allow (`access_token.cpp`,
`access_control.cpp` and `permissions.hpp` of `noinst/server`).

# What is left abstract

Base64, the JSON tokenizer and the check of a signature are parameters
(`TokenFormat`): the parser of the repository is the one that reads the
events of the tokenizer. The number of an event is the integer the parser
truncates it to. A tokenizer that fails has no events; the source then
drops what the parser has read.

# Keys

An access control has a public key, or a key store with the keys of each
app, or neither, which is for tests.
-/
import BarqSync.Server.Dir

namespace BarqSync.Server

-- ===== privileges

/-- `Privilege`. -/
inductive Privilege
  | read
  | update
  | delete
  | setPermissions
  | query
  | create
  | modifySchema
deriving DecidableEq, Repr

/-- The value of a privilege in the bit field of a token. -/
def Privilege.mask : Privilege → Nat
  | .read => 1
  | .update => 2
  | .delete => 4
  | .setPermissions => 8
  | .query => 16
  | .create => 32
  | .modifySchema => 64

/-- `Privilege::Download`. -/
def downloadMask : Nat := Privilege.read.mask ||| Privilege.query.mask

/-- `Privilege::Upload`. -/
def uploadMask : Nat :=
  Privilege.update.mask ||| Privilege.delete.mask ||| Privilege.create.mask

-- ===== tokens

/-- `AccessToken`, without its timestamp and its label, which nothing
here reads. -/
structure AccessToken where
  identity : Bytes := []
  adminField : Bool := false
  admin : Bool := false
  appId : Bytes := []
  path : Option Bytes := none
  expires : Int := 0
  access : Nat := 0
deriving DecidableEq, Repr

/-- `AccessToken::ParseError`. -/
inductive ParseError
  | invalidBase64
  | invalidJson
  | invalidSignature
  | invalidJwt
  | missingAppId
  | unknownAppId
deriving DecidableEq, Repr

/-- `AccessToken::expired`. -/
def AccessToken.expired (token : AccessToken) (now : Int) : Bool :=
  token.expires ≠ 0 && decide (token.expires < now)

/-- The token's access includes a privilege. -/
def AccessToken.includes (token : AccessToken) (p : Privilege) : Bool :=
  token.access &&& p.mask = p.mask

/-- The events of `JSONParser`. -/
inductive JsonEvent
  | null
  | boolean (value : Bool)
  | number (value : Int)
  | string (escaped : Bytes)
  | arrayBegin
  | arrayEnd
  | objectBegin
  | objectEnd
deriving DecidableEq, Repr

/-- `AccessTokenParser::parser_state`. -/
inductive ParserState
  | toplevel
  | awaitIdentity
  | awaitAdmin
  | awaitTimestamp
  | awaitExpires
  | awaitAppId
  | awaitPath
  | awaitSyncLabel
  | awaitAccess
  | awaitAccessStrings
  | skipValue
deriving DecidableEq, Repr

/-- `AccessTokenParser`. -/
structure AccessTokenParser where
  token : AccessToken := {}
  stateStack : List ParserState := []
  skipDepth : Nat := 0
deriving DecidableEq, Repr

/-- What a key of the top-level object makes the parser wait for. -/
def stateForKey (key : Bytes) : ParserState :=
  if key = ascii ['a', 'c', 'c', 'e', 's', 's'] then .awaitAccess
  else if key = ascii ['i', 'd', 'e', 'n', 't', 'i', 't', 'y']
      ∨ key = ascii ['s', 'u', 'b'] then .awaitIdentity
  else if key = ascii ['a', 'd', 'm', 'i', 'n']
      ∨ key = ascii ['i', 's', 'A', 'd', 'm', 'i', 'n'] then .awaitAdmin
  else if key = ascii ['t', 'i', 'm', 'e', 's', 't', 'a', 'm', 'p']
      ∨ key = ascii ['i', 'a', 't'] then .awaitTimestamp
  else if key = ascii ['e', 'x', 'p', 'i', 'r', 'e', 's']
      ∨ key = ascii ['e', 'x', 'p'] then .awaitExpires
  else if key = ascii ['p', 'a', 't', 'h'] then .awaitPath
  else if key = ascii ['s', 'y', 'n', 'c', '_', 'l', 'a', 'b', 'e', 'l']
      ∨ key = ascii ['s', 'y', 'n', 'c', 'L', 'a', 'b', 'e', 'l'] then
    .awaitSyncLabel
  else if key = ascii ['a', 'p', 'p', '_', 'i', 'd']
      ∨ key = ascii ['a', 'p', 'p', 'I', 'd'] then .awaitAppId
  else .skipValue

/-- The privileges an access string stands for. -/
def accessForString (text : Bytes) : Nat :=
  if text = ascii ['d', 'o', 'w', 'n', 'l', 'o', 'a', 'd'] then downloadMask
  else if text = ascii ['u', 'p', 'l', 'o', 'a', 'd'] then uploadMask
  else if text = ascii ['m', 'a', 'n', 'a', 'g', 'e'] then
    Privilege.modifySchema.mask ||| Privilege.setPermissions.mask
  else 0

/-- `AccessTokenParser::operator()`. There is no result on an unexpected
token. -/
def AccessTokenParser.handle (parser : AccessTokenParser)
    (event : JsonEvent) : Option AccessTokenParser :=
  match parser.stateStack with
  | [] =>
    match event with
    | .objectBegin => some { parser with stateStack := [.toplevel] }
    | _ => none
  | state :: rest =>
    -- the value that was awaited has been read
    let done := fun token : AccessToken =>
      some { parser with token := token, stateStack := rest }
    match state, event with
    | .toplevel, .objectEnd => some { parser with stateStack := rest }
    | .toplevel, .string key =>
      some { parser with
        stateStack := stateForKey key :: parser.stateStack }
    | .skipValue, event =>
      let depth :=
        match event with
        | .objectBegin | .arrayBegin => parser.skipDepth + 1
        | .objectEnd | .arrayEnd => parser.skipDepth - 1
        | _ => parser.skipDepth
      some { parser with
        skipDepth := depth
        stateStack := if depth = 0 then rest else parser.stateStack }
    | .awaitIdentity, .string text =>
      done { parser.token with identity := text }
    | .awaitAdmin, .boolean value =>
      done { parser.token with adminField := true, admin := value }
    | .awaitTimestamp, .null | .awaitTimestamp, .number _ =>
      done parser.token
    | .awaitExpires, .null => done { parser.token with expires := 0 }
    | .awaitExpires, .number value =>
      done { parser.token with expires := value }
    | .awaitSyncLabel, .string _ => done parser.token
    | .awaitAppId, .string text =>
      done { parser.token with appId := text }
    | .awaitPath, .string text =>
      done { parser.token with path := some text }
    | .awaitAccess, .arrayBegin =>
      some { parser with stateStack := .awaitAccessStrings :: rest }
    | .awaitAccessStrings, .string text =>
      some { parser with token := { parser.token with
        access := parser.token.access ||| accessForString text } }
    | .awaitAccessStrings, .arrayEnd => done parser.token
    | .awaitAccessStrings, _ => some parser
    | _, _ => none

/-- The token that the events of a JSON text make. -/
def AccessTokenParser.read (events : List JsonEvent) :
    Option AccessToken :=
  (events.foldlM AccessTokenParser.handle {}).map AccessTokenParser.token

-- ===== parsing

/-- The parts of a token that the repository does not decode itself. -/
structure TokenFormat (Key : Type) where
  /-- `base64_decode`. -/
  base64Decode : Bytes → Option Bytes
  /-- `JSONParser`: the events of a text, if it is one. -/
  jsonEvents : Bytes → Option (List JsonEvent)
  /-- `PKey::verify`. -/
  verify : Key → Bytes → Bytes → Bool

section

variable {Key : Type} (format : TokenFormat Key)

/-- The last part of `AccessToken::parse` and `parseJWT`. -/
def parsePayload (payload : Bytes) : Except ParseError AccessToken :=
  match (format.jsonEvents payload).bind AccessTokenParser.read with
  | some token => .ok token
  | none => .error .invalidJson

/-- The check of the signature, when there is a key to check it with. -/
def checkSignature (key : Option Key) (signed signatureBase64 : Bytes) :
    Except ParseError Unit :=
  match key with
  | none => .ok ()
  | some key =>
    match format.base64Decode signatureBase64 with
    | none => .error .invalidBase64
    | some signature =>
      if format.verify key signed signature then .ok ()
      else .error .invalidSignature

/-- The character that ends the payload of a token in the old format. -/
def colon : UInt8 := 58

/-- The text before the first separator and the text after it, if there
is one. -/
def splitAtFirst (sep : UInt8) (text : Bytes) : Option (Bytes × Bytes) :=
  if sep ∈ text
  then some (text.takeWhile (· ≠ sep), (text.dropWhile (· ≠ sep)).tail)
  else none

/-- `AccessToken::parseJWT`. What is signed is the header and the payload
with the dot between them. -/
def parseJwt (key : Option Key) (signedToken : Bytes) :
    Except ParseError AccessToken :=
  match splitAtFirst dot signedToken with
  | none => .error .invalidJwt
  | some (header, rest) =>
    match splitAtFirst dot rest with
    | none => .error .invalidJwt
    | some (payloadBase64, signatureBase64) =>
      (checkSignature format key (header ++ dot :: payloadBase64)
        signatureBase64).bind fun _ =>
          match format.base64Decode payloadBase64 with
          | none => .error .invalidBase64
          | some payload => parsePayload format payload

/-- The old format of `AccessToken::parse`. -/
def parseOld (key : Option Key) (tokenBase64 signatureBase64 : Bytes) :
    Except ParseError AccessToken :=
  match format.base64Decode tokenBase64 with
  | none => .error .invalidBase64
  | some payload =>
    (checkSignature format key payload signatureBase64).bind fun _ =>
      parsePayload format payload

/-- `AccessToken::parse`. -/
def parseToken (key : Option Key) (signedToken : Bytes) :
    Except ParseError AccessToken :=
  match splitAtFirst colon signedToken with
  | some (tokenBase64, signatureBase64) =>
    parseOld format key tokenBase64 signatureBase64
  | none =>
    if dot ∈ signedToken then parseJwt format key signedToken
    else parseOld format key signedToken []

-- ===== access control

/-- `AccessControl`. -/
structure AccessControl (Key : Type) where
  publicKey : Option Key
  /-- `PublicKeyStore`: an app without an entry has no key. -/
  tenantPublicKeys : Option (Bytes → List Key)

/-- The first key under which the token can be parsed. -/
def parseWithKeys (signedToken : Bytes) :
    List Key → Except ParseError AccessToken
  | [] => .error .invalidSignature
  | key :: rest =>
    match parseToken format (some key) signedToken with
    | .ok token => .ok token
    | .error _ => parseWithKeys signedToken rest

/-- `AccessControl::verify_access_token`. -/
def AccessControl.verifyAccessToken (control : AccessControl Key)
    (signedToken : Bytes) : Except ParseError AccessToken :=
  match control.tenantPublicKeys with
  | some keys =>
    -- the app whose keys count is read off the unverified token
    (parseToken format none signedToken).bind fun token =>
      if token.appId = [] then .error .missingAppId
      else if keys token.appId = [] then .error .unknownAppId
      else parseWithKeys format signedToken (keys token.appId)
  | none => parseToken format control.publicKey signedToken

end

/-- `without_leading_slash`. -/
def withoutLeadingSlash (path : Bytes) : Bytes :=
  if path.head? = some slash then path.tail else path

/-- `token_path_matches`. -/
def tokenPathMatches (token : AccessToken) (path : Bytes) : Bool :=
  match token.path with
  | none => true
  | some tokenPath => withoutLeadingSlash tokenPath = withoutLeadingSlash path

/-- `AccessControl::can`. -/
def can (token : AccessToken) (p : Privilege) (path : Bytes) : Bool :=
  tokenPathMatches token path && token.includes p

/-- `AccessControl::is_admin`. -/
def isAdmin (token : AccessToken) : Bool :=
  if token.adminField then token.admin
  else if token.path.isNone then true
  else token.access &&& (Privilege.modifySchema.mask
    ||| Privilege.setPermissions.mask) ≠ 0

end BarqSync.Server
