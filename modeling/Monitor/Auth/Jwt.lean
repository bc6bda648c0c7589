import Monitor.Lib.GoText

/-! # Tokens of the visualization server

`JWTAuth` of `jwt.go` and the `RefreshToken` handler of `handler.go`. Signing and checking
signatures belong to the JWT library and are a parameter; a token decodes to the claims it
was signed with. Times are nanoseconds, the dates in a token are whole seconds.
-/

namespace Monitor.Auth

open GoText

def second : Int := 1000000000

/-- The fields of `JWTConfig` that the modelled functions read. -/
structure JWTConfig where
  secret : GoString
  tokenExpiry : Int
  refreshExpiry : Int
  cookieName : GoString
  refreshCookieName : GoString
  allowedAudiences : List GoString
  issuer : GoString
  maxRefreshCount : Int

/-- `Claims`, with the registered claims that are set somewhere. -/
structure Claims where
  userID : GoString
  role : GoString
  refreshCount : Int
  expiresAt : Int
  issuedAt : Int
  issuer : GoString
  subject : GoString
  audience : List GoString
  deriving DecidableEq, Repr

/-- The JWT library with HMAC signatures. -/
structure Jwt (Token : Type) where
  signedString : GoString → Claims → Token
  /-- The claims of a token with a good signature. -/
  verified : GoString → Token → Option Claims
  verified_signedString : ∀ secret claims, verified secret (signedString secret claims) = some claims

/-- `jwt.NewNumericDate`: the fraction of a second is cut off. -/
def newNumericDate (t : Int) : Int := t / second

inductive TokenError where
  | parse
  | invalidIssuer
  | invalidAudience
  | refreshTokenExpired
  deriving DecidableEq, Repr

structure JWTAuth where
  config : JWTConfig

/-- `NewJWTAuth`; `random` is the secret that is made up when none is configured. -/
def newJWTAuth (config : JWTConfig) (random : GoString) : JWTAuth where
  config :=
    { config with
      cookieName := if config.cookieName = [] then ascii "token" else config.cookieName
      refreshCookieName :=
        if config.refreshCookieName = [] then ascii "refresh_token" else config.refreshCookieName
      tokenExpiry := if config.tokenExpiry = 0 then 3600 * second else config.tokenExpiry
      refreshExpiry := if config.refreshExpiry = 0 then 24 * 3600 * second else config.refreshExpiry
      maxRefreshCount := if config.maxRefreshCount = 0 then 10 else config.maxRefreshCount
      secret := if config.secret = [] then random else config.secret }

namespace JWTAuth

variable {Token : Type} (jwt : Jwt Token) (j : JWTAuth)

def generateTokenWithRefreshCount (now : Int) (userID role : GoString) (refreshCount : Int) : Token :=
  jwt.signedString j.config.secret
    { userID := userID
      role := role
      refreshCount := refreshCount
      expiresAt := newNumericDate (now + j.config.tokenExpiry)
      issuedAt := newNumericDate now
      issuer := j.config.issuer
      subject := userID
      audience := j.config.allowedAudiences }

/-- The claims of a refresh token; the fields that are not set are zero. -/
def refreshClaims (now : Int) (userID : GoString) : Claims where
  userID := userID
  role := []
  refreshCount := 0
  expiresAt := newNumericDate (now + j.config.refreshExpiry)
  issuedAt := newNumericDate now
  issuer := []
  subject := []
  audience := []

def generateRefreshToken (now : Int) (userID : GoString) : Token :=
  jwt.signedString j.config.secret (j.refreshClaims now userID)

/-- What `ValidateToken` checks of claims beyond their signature. -/
def checkClaims (now : Int) (claims : Claims) : Except TokenError Claims :=
  if ¬ now < claims.expiresAt * second then
    .error .parse
  else if j.config.issuer ≠ [] ∧ claims.issuer ≠ j.config.issuer then
    .error .invalidIssuer
  else if j.config.allowedAudiences.length > 0 ∧
      ¬ j.config.allowedAudiences.any fun audience => claims.audience.contains audience then
    .error .invalidAudience
  else
    .ok claims

def validateToken (now : Int) (token : Token) : Except TokenError Claims :=
  match jwt.verified j.config.secret token with
  | none => .error .parse
  | some claims => j.checkClaims now claims

def validateRefreshToken (now : Int) (token : Token) : Except TokenError Claims :=
  match validateToken jwt j now token with
  | .error err => .error err
  | .ok claims =>
    if claims.refreshCount ≥ j.config.maxRefreshCount then
      .error .refreshTokenExpired
    else
      .ok claims

end JWTAuth

inductive Method where
  | post
  | other
  deriving DecidableEq, Repr

structure Request (Token : Type) where
  method : Method
  cookies : List (GoString × Token)
  now : Int

inductive Response (Token : Type) where
  | error (status : Nat) (message : String)
  | refreshed (token : Token) (expiresIn : Int)

def Response.tokens {Token : Type} : Response Token → List Token
  | .error _ _ => []
  | .refreshed token _ => [token]

def Response.succeeded {Token : Type} : Response Token → Bool
  | .error _ _ => false
  | .refreshed _ _ => true

def Request.cookie {Token : Type} (r : Request Token) (name : GoString) : Option Token :=
  (r.cookies.find? (·.1 = name)).map (·.2)

/-- The handler `RefreshToken`. -/
def refreshToken {Token : Type} (jwt : Jwt Token) (j : JWTAuth) (r : Request Token) : Response Token :=
  if r.method ≠ .post then
    .error 405 "Method not allowed"
  else
    match r.cookie j.config.refreshCookieName with
    | none => .error 401 "Refresh token not found"
    | some token =>
      match j.validateRefreshToken jwt r.now token with
      | .error _ => .error 401 "Invalid refresh token"
      | .ok claims =>
        .refreshed
          (j.generateTokenWithRefreshCount jwt r.now claims.userID claims.role
            (claims.refreshCount + 1))
          (j.config.tokenExpiry.tdiv second)

end Monitor.Auth
