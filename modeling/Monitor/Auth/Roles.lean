import Monitor.Auth.Handler
import Monitor.Auth.Refresh
import Monitor.Lib.Runs

/-! # Where the role of a request comes from

The server as a whole: logins, refreshes, refresh tokens that it makes itself, and requests to guarded
handlers, in any order and with any tokens that were issued before. Every token that verifies was
issued, and the claims of an issued token go back to a login or to a refresh token without a role;
refreshing copies them.
-/

namespace Monitor.Auth

open GoText Runs List JWTAuth

/-- What has happened: the tokens that are out, the logins that were accepted, the users that were given
    to `GenerateRefreshToken`, and the users and roles with which requests have passed. -/
structure Served (Token : Type) where
  issued : List Token
  accepted : List (GoString × GoString)
  granted : List GoString
  passed : List (GoString × GoString)

inductive ServerEvent (Token : Type) where
  | login (r : LoginCall)
  | refresh (r : Request Token)
  | generateRefreshToken (now : Int) (userID : GoString)
  | visit (r : Visit Token)

def ServerEvent.presented {Token : Type} : ServerEvent Token → List Token
  | .login _ => []
  | .refresh r => r.cookies.map (·.2)
  | .generateRefreshToken _ _ => []
  | .visit r => r.cookies.map (·.2) ++ r.bearer.toList ++ r.query.toList

namespace Served

variable {Token : Type}

def start : Served Token := ⟨[], [], [], []⟩

section Steps

variable (jwt : Jwt Token) (j : JWTAuth) (checkPassword : GoString → GoString → Bool)

def after (s : Served Token) : ServerEvent Token → Served Token
  | .login r =>
    match login jwt j checkPassword r with
    | .error _ _ => s
    | .loggedIn token userID role _ =>
      { s with issued := token :: s.issued, accepted := (userID, role) :: s.accepted }
  | .refresh r => { s with issued := (refreshToken jwt j r).tokens ++ s.issued }
  | .generateRefreshToken now userID =>
    { s with issued := j.generateRefreshToken jwt now userID :: s.issued, granted := userID :: s.granted }
  | .visit r => { s with passed := (middleware jwt j r).toList ++ s.passed }

def step (s : Served Token) (e : ServerEvent Token) : Option (Served Token) := some
    (s.after jwt j checkPassword e)

/-- No signature is forged: what is presented was issued before or does not verify. -/
def Unforged (s : Served Token) (e : ServerEvent Token) : Prop :=
  ∀ token ∈ e.presented, token ∈ s.issued ∨ jwt.verified j.config.secret token = none

end Steps

/-- A user and a role that a login was accepted for, or a user without a role that a refresh token was
    made for. -/
def Justified (s : Served Token) (entry : GoString × GoString) : Prop :=
  entry ∈ s.accepted ∨ entry.2 = [] ∧ entry.1 ∈ s.granted

variable (jwt : Jwt Token) (j : JWTAuth) (checkPassword : GoString → GoString → Bool)

/-- Whoever has passed was entitled to the role, and `validateUser` has returned what the logins were
    accepted for. -/
structure NoEscalation (s : Served Token) : Prop where
  passed : ∀ entry ∈ s.passed, s.Justified entry
  accepted : ∀ entry ∈ s.accepted, ∃ password, validateUser checkPassword entry.1 password = some entry

structure Sound (s : Served Token) : Prop where
  issued : ∀ token ∈ s.issued, ∀ claims, jwt.verified j.config.secret token = some claims →
    s.Justified (claims.userID, claims.role)
  entitled : s.NoEscalation checkPassword

variable {jwt j checkPassword} {s s' : Served Token} {entry : GoString × GoString}

theorem Justified.mono (justified : s.Justified entry)
    (accepted : s.accepted ⊆ s'.accepted) (granted : s.granted ⊆ s'.granted) : s'.Justified entry :=
  justified.imp (fun mem => accepted mem) fun role => ⟨role.1, granted role.2⟩

theorem Sound.grow (sound : s.Sound jwt j checkPassword) (accepted : s.accepted ⊆ s'.accepted)
    (granted : s.granted ⊆ s'.granted)
    (issued : ∀ token ∈ s'.issued, token ∈ s.issued ∨ ∀ claims, jwt.verified j.config.secret token =
    some claims → s'.Justified (claims.userID, claims.role))
    (passed : ∀ entry ∈ s'.passed, entry ∈ s.passed ∨ s'.Justified entry)
    (logins : ∀ entry ∈ s'.accepted, entry ∈ s.accepted ∨
      ∃ password, validateUser checkPassword entry.1 password =
      some entry) : s'.Sound jwt j checkPassword where
  issued token mem claims verified := by
    cases issued token mem with
    | inl before => exact (sound.issued token before claims verified).mono accepted granted
    | inr new => exact new claims verified
  entitled :=
    { passed := fun entry mem => by
        cases passed entry mem with
        | inl before => exact (sound.entitled.passed entry before).mono accepted granted
        | inr new => exact new
      accepted := fun entry mem => by
        cases logins entry mem with
        | inl before => exact sound.entitled.accepted entry before
        | inr new => exact new }

variable {claims : Claims} {token : Token} {r : Visit Token} {userID role : GoString} {now : Int}

theorem verified_generateToken {refreshCount : Int}
    (verified : jwt.verified j.config.secret
    (j.generateTokenWithRefreshCount jwt now userID role refreshCount) =
      some claims) : claims.userID = userID ∧ claims.role = role := by
  rw [generateTokenWithRefreshCount, jwt.verified_signedString] at verified
  cases verified
  exact ⟨rfl, rfl⟩

theorem verified_of_validateToken
    (valid : j.validateToken jwt now token = .ok claims) : jwt.verified j.config.secret token =
    some claims := by
  unfold validateToken checkClaims at valid
  cases verified : jwt.verified j.config.secret token with
  | none => simp [verified] at valid
  | some claims' =>
    simp only [verified] at valid
    split at valid
    · cases valid
    · split at valid
      · cases valid
      · split at valid
        · cases valid
        · cases valid
          rfl

theorem verified_of_validateRefreshToken
    (valid : j.validateRefreshToken jwt now token = .ok claims) :
    jwt.verified j.config.secret token = some claims := by
  unfold validateRefreshToken at valid
  cases validated : j.validateToken jwt now token with
  | error err => simp [validated] at valid
  | ok claims' =>
    simp only [validated] at valid
    split at valid
    · cases valid
    · cases valid
      exact verified_of_validateToken validated

theorem Unforged.issued {e : ServerEvent Token} (unforged : s.Unforged jwt j e)
    (presented : token ∈ e.presented)
    (verified : jwt.verified j.config.secret token = some claims) : token ∈ s.issued := by
  cases unforged token presented with
  | inl issued => exact issued
  | inr forged =>
    rw [forged] at verified
    cases verified

theorem validateUser_username {username password : GoString}
    (found : validateUser checkPassword username password = some entry) : entry.1 = username := by
  unfold validateUser at found
  split at found
  · cases found
  · split at found
    · cases found
      rfl
    · cases found

theorem login_validated {r : LoginCall} {expiresIn : Int}
    (answer : login jwt j checkPassword r = .loggedIn token userID role expiresIn) :
    token = j.generateToken jwt r.now userID role ∧
      ∃ password, validateUser checkPassword userID password = some (userID, role) := by
  unfold login at answer
  split at answer
  · cases answer
  · split at answer
    · cases answer
    · rename_i req _
      split at answer
      · cases answer
      · rename_i userID' role' found
        cases answer
        have same : userID = req.username := validateUser_username found
        rw [← same] at found
        exact ⟨rfl, req.password, found⟩

theorem refreshToken_tokens {r : Request Token} (mem : token ∈ (refreshToken jwt j r).tokens) :
    ∃ presented ∈ (ServerEvent.refresh r).presented, ∃ claims,
      jwt.verified j.config.secret presented = some claims ∧
      token = j.generateTokenWithRefreshCount jwt r.now claims.userID claims.role
      (claims.refreshCount + 1) := by
  unfold refreshToken at mem
  split at mem
  · cases mem
  · split at mem
    · cases mem
    · rename_i presented cookie
      split at mem
      · cases mem
      · rename_i claims valid
        obtain ⟨entry, found, same⟩ := Option.map_eq_some_iff.mp cookie
        have listed : presented ∈ (ServerEvent.refresh r).presented :=
          mem_map.mpr ⟨entry, mem_of_find?_eq_some found, same⟩
        exact ⟨presented, listed, claims, verified_of_validateRefreshToken valid, mem_singleton.mp mem⟩

theorem extractToken_presented (found : extractToken j r = some token) :
    token ∈ (ServerEvent.visit r).presented := by
  unfold extractToken at found
  simp only [ServerEvent.presented, mem_append, mem_map, Option.mem_toList]
  split at found
  · rename_i cookie first
    cases found
    exact .inl (.inl ⟨cookie, mem_of_find?_eq_some first, rfl⟩)
  · split at found
    · rename_i bearer
      exact .inl (.inr (bearer.trans found))
    · exact .inr found

theorem middleware_passes (passes : middleware jwt j r = some entry) :
    ∃ presented ∈ (ServerEvent.visit r).presented, ∃ claims,
      jwt.verified j.config.secret presented = some claims ∧ entry = (claims.userID, claims.role) := by
  unfold middleware at passes
  split at passes
  · cases passes
  · rename_i token found
    split at passes
    · cases passes
    · rename_i claims valid
      cases passes
      exact ⟨token, extractToken_presented found, claims, verified_of_validateToken valid, rfl⟩

section

variable (sound : s.Sound jwt j checkPassword)
include sound

theorem Sound.loggedIn (r : LoginCall) :
    (s.after jwt j checkPassword (.login r)).Sound jwt j checkPassword := by
  simp only [after]
  split
  · exact sound
  · rename_i token userID role expiresIn answer
    obtain ⟨made, password, valid⟩ := login_validated answer
    have logged : ∀ entry ∈ (userID, role) :: s.accepted, entry ∈ s.accepted ∨
        ∃ password, validateUser checkPassword entry.1 password = some entry := by
      intro entry mem
      cases mem_cons.mp mem with
      | inl here => exact .inr ⟨password, here ▸ valid⟩
      | inr before => exact .inl before
    refine sound.grow (subset_cons_self _ _) (List.Subset.refl _) (fun other mem => ?_)
      (fun entry mem => .inl mem) logged
    cases mem_cons.mp mem with
    | inr before => exact .inl before
    | inl here =>
      refine .inr fun claims verified => .inl ?_
      rw [here, made, generateToken] at verified
      obtain ⟨sameUser, sameRole⟩ := verified_generateToken verified
      rw [sameUser, sameRole]
      exact mem_cons_self

theorem Sound.refreshed {r : Request Token} (unforged : s.Unforged jwt j (.refresh r)) :
    (s.after jwt j checkPassword (.refresh r)).Sound jwt j checkPassword := by
  refine sound.grow (List.Subset.refl _) (List.Subset.refl _) (fun token mem => ?_)
    (fun entry mem => .inl mem) fun entry mem => .inl mem
  cases mem_append.mp mem with
  | inr before => exact .inl before
  | inl new =>
    obtain ⟨presented, listed, claims, verified, made⟩ := refreshToken_tokens new
    refine .inr fun claims' verified' => ?_
    rw [made] at verified'
    obtain ⟨sameUser, sameRole⟩ := verified_generateToken verified'
    rw [sameUser, sameRole]
    exact sound.issued presented (unforged.issued listed verified) claims verified

theorem Sound.granted (now : Int) (userID : GoString) :
    (s.after jwt j checkPassword (.generateRefreshToken now userID)).Sound jwt j checkPassword := by
  refine sound.grow (List.Subset.refl _) (subset_cons_self _ _) (fun token mem => ?_)
    (fun entry mem => .inl mem) fun entry mem => .inl mem
  cases mem_cons.mp mem with
  | inr before => exact .inl before
  | inl here =>
    refine .inr fun claims verified => .inr ?_
    rw [here, generateRefreshToken, jwt.verified_signedString] at verified
    cases verified
    exact ⟨rfl, mem_cons_self⟩

theorem Sound.visited (unforged : s.Unforged jwt j (.visit r)) :
    (s.after jwt j checkPassword (.visit r)).Sound jwt j checkPassword := by
  refine sound.grow (List.Subset.refl _) (List.Subset.refl _) (fun token mem => .inl mem)
    (fun entry mem => ?_) fun entry mem => .inl mem
  cases mem_append.mp mem with
  | inr before => exact .inl before
  | inl now =>
    obtain ⟨presented, listed, claims, verified, same⟩ := middleware_passes (Option.mem_toList.mp now)
    rw [same]
    exact .inr (sound.issued presented (unforged.issued listed verified) claims verified)

end

theorem Sound.after (sound : s.Sound jwt j checkPassword) {e : ServerEvent Token}
    (unforged : s.Unforged jwt j e) : (s.after jwt j checkPassword e).Sound jwt j checkPassword := by
  cases e with
  | login r => exact sound.loggedIn r
  | refresh r => exact sound.refreshed unforged
  | generateRefreshToken now userID => exact sound.granted now userID
  | visit r => exact sound.visited unforged

theorem sound_start : (start : Served Token).Sound jwt j checkPassword :=
  ⟨fun _ mem => (not_mem_nil mem).elim, fun _ mem => (not_mem_nil mem).elim,
    fun _ mem => (not_mem_nil mem).elim⟩

def adminLogin : GoString × Claims := plainAuth.generateToken openJwt 0 (ascii "admin") (ascii "admin")

/-- Accepts the password of the stored hash; the comment beside the hash names another one. -/
def onePassword (password _ : GoString) : Bool := password == ascii "password"

/-- The administrator logs in and shows the token, first to `RefreshToken` and then to the guard. -/
def adminVisit : List (ServerEvent (GoString × Claims)) :=
  [.login ⟨.post, some ⟨ascii "admin", ascii "password"⟩, 0⟩,
    .refresh ⟨.post, [(ascii "refresh_token", adminLogin)], 1⟩,
    .visit ⟨[], some adminLogin, none, 2⟩]

end Served

end Monitor.Auth
