import Monitor.Auth.Jwt

/-! # Logging in and the guard before other handlers

`Login` and `validateUser` of `handler.go` and `Middleware` of `jwt.go`. Comparing a password with
a hash is left to the library. A request carries its tokens as cookies, as a bearer token and as a
parameter of its address.
-/

namespace Monitor.Auth

open GoText

/-- `GenerateToken`. -/
def JWTAuth.generateToken {Token : Type} (jwt : Jwt Token) (j : JWTAuth) (now : Int)
    (userID role : GoString) : Token :=
  j.generateTokenWithRefreshCount jwt now userID role 0

/-- A user in the table of `validateUser`. -/
structure User where
  password : GoString
  role : GoString

/-- The hash that both users have. -/
def secretHash : GoString := ascii "$2a$10$92IXUNpkjO0rOQ5byMi.Ye4oKoEa3Ro9llC/.og/at2.uheWG/igi"

def users : List (GoString × User) :=
  [(ascii "admin", ⟨secretHash, ascii "admin"⟩), (ascii "user", ⟨secretHash, ascii "user"⟩)]

/-- The user and the role, if the password fits; `checkPassword` gets the password and the hash. -/
def validateUser (checkPassword : GoString → GoString → Bool) (username password : GoString) :
    Option (GoString × GoString) :=
  match users.find? (·.1 = username) with
  | none => none
  | some (_, user) => if checkPassword password user.password then some (username, user.role) else none

structure LoginRequest where
  username : GoString
  password : GoString

/-- A request to `Login`; the body is absent when it cannot be decoded. -/
structure LoginCall where
  method : Method
  body : Option LoginRequest
  now : Int

inductive LoginResponse (Token : Type) where
  | error (status : Nat) (message : String)
  | loggedIn (token : Token) (userID role : GoString) (expiresIn : Int)

def login {Token : Type} (jwt : Jwt Token) (j : JWTAuth) (checkPassword : GoString → GoString → Bool)
    (r : LoginCall) : LoginResponse Token :=
  if r.method ≠ .post then
    .error 405 "Method not allowed"
  else
    match r.body with
    | none => .error 400 "Invalid request body"
    | some req =>
      match validateUser checkPassword req.username req.password with
      | none => .error 401 "Invalid credentials"
      | some (userID, role) =>
        .loggedIn (j.generateToken jwt r.now userID role) userID role (j.config.tokenExpiry.tdiv second)

structure Visit (Token : Type) where
  cookies : List (GoString × Token)
  bearer : Option Token
  query : Option Token
  now : Int

/-- `extractToken`: a cookie comes first, then the header, then the address. -/
def extractToken {Token : Type} (j : JWTAuth) (r : Visit Token) : Option Token :=
  match r.cookies.find? (·.1 = j.config.cookieName) with
  | some cookie => some cookie.2
  | none =>
    match r.bearer with
    | some token => some token
    | none => r.query

/-- The user and the role with which `Middleware` lets a request pass. -/
def middleware {Token : Type} (jwt : Jwt Token) (j : JWTAuth) (r : Visit Token) : Option
    (GoString × GoString) :=
  match extractToken j r with
  | none => none
  | some token =>
    match j.validateToken jwt r.now token with
    | .error _ => none
    | .ok claims => some (claims.userID, claims.role)

end Monitor.Auth
