import Monitor.Auth.Jwt

/-! # How often one login can be refreshed

The handler keeps no record of what it has refreshed, and the count it raises is in the
access token it returns, not in the refresh token that is presented. A client that presents
the same refresh token again is therefore never stopped by the count. What does stop it is
that a refresh token carries neither an issuer nor an audience.
-/

namespace Monitor.Auth

open GoText List JWTAuth

section Client

variable {Token : Type} (jwt : Jwt Token) (j : JWTAuth)

/-- Requests at non-decreasing times from `clock` on, by a client that knows some tokens, learns
    those the handler returns, and cannot make up others that verify. -/
def Plays : List Token → Int → List (Request Token) → Prop
  | _, _, [] => True
  | known, clock, r :: requests =>
    clock ≤ r.now ∧
    (∀ cookie ∈ r.cookies, cookie.2 ∈ known ∨ jwt.verified j.config.secret cookie.2 = none) ∧
    Plays (known ++ (refreshToken jwt j r).tokens) r.now requests

/-- How many of the requests succeed; the handler has no state. -/
def successes (requests : List (Request Token)) : Nat :=
  (requests.filter fun r => (refreshToken jwt j r).succeeded).length

/-- At most `MaxRefreshCount` requests succeed, whatever the client does with one refresh token. -/
def BoundedRefresh (config : JWTConfig) (random : GoString) : Prop :=
  ∀ (userID : GoString) (issued : Int) (requests : List (Request Token)),
    Plays jwt (newJWTAuth config random)
      [(newJWTAuth config random).generateRefreshToken jwt issued userID] issued requests →
    (successes jwt (newJWTAuth config random) requests : Int) ≤ config.maxRefreshCount

end Client

/-- Configurations under which no refresh token is accepted at all. -/
def RejectsRefreshTokens (config : JWTConfig) : Prop :=
  config.issuer ≠ [] ∨ config.allowedAudiences ≠ [] ∨ config.refreshExpiry < 0

instance (config : JWTConfig) : Decidable (RejectsRefreshTokens config) :=
  inferInstanceAs (Decidable (_ ∨ _ ∨ _))

section Bound

variable {Token : Type} {jwt : Jwt Token} {j : JWTAuth} {r : Request Token}

theorem refreshToken_succeeded_iff : (refreshToken jwt j r).succeeded = true ↔
    r.method = .post ∧ ∃ token claims, r.cookie j.config.refreshCookieName = some token ∧
      jwt.verified j.config.secret token = some claims ∧ j.checkClaims r.now claims = .ok claims ∧
      claims.refreshCount < j.config.maxRefreshCount := by
  have unchanged : ∀ claims claims', j.checkClaims r.now claims = .ok claims' → claims' = claims := by
    intro claims claims' passed
    unfold checkClaims at passed
    split at passed
    · cases passed
    · split at passed
      · cases passed
      · split at passed <;> cases passed
        rfl
  unfold refreshToken validateRefreshToken validateToken
  cases posted : r.method with
  | other => simp [Response.succeeded]
  | post =>
    cases cookie : r.cookie j.config.refreshCookieName with
    | none => simp [Response.succeeded]
    | some token =>
      cases verified : jwt.verified j.config.secret token with
      | none => simp [Response.succeeded, verified]
      | some claims =>
        cases passed : j.checkClaims r.now claims with
        | error err => simp [Response.succeeded, verified, passed]
        | ok claims' =>
          obtain rfl := unchanged claims claims' passed
          by_cases spent : claims'.refreshCount ≥ j.config.maxRefreshCount
          · simp [Response.succeeded, verified, passed, spent]
          · simp [Response.succeeded, verified, passed, spent, Int.not_le.mp spent]

theorem cookie_mem {name : GoString} {token : Token} (found : r.cookie name = some token) :
    ∃ cookie ∈ r.cookies, cookie.2 = token := by
  obtain ⟨cookie, at_, same⟩ := Option.map_eq_some_iff.mp found
  exact ⟨cookie, mem_of_find?_eq_some at_, same⟩

/-- If the claims of a token never pass, a client with nothing else is never successful and learns
    nothing. -/
theorem successes_of_rejected {claims : Claims} {token : Token}
    (signed : jwt.verified j.config.secret token = some claims) (requests : List (Request Token)) :
    ∀ clock, (∀ now, clock ≤ now → j.checkClaims now claims ≠ .ok claims) →
      Plays jwt j [token] clock requests → successes jwt j requests = 0 := by
  induction requests with
  | nil => exact fun _ _ _ => rfl
  | cons r requests ih =>
    intro clock rejected plays
    obtain ⟨later, honest, plays⟩ := plays
    have failed : (refreshToken jwt j r).succeeded = false := by
      by_contra succeeded
      obtain ⟨_, presented, claims', cookie, verified, passed, _⟩ :=
        refreshToken_succeeded_iff.mp (Bool.not_eq_false _ ▸ succeeded)
      obtain ⟨entry, mem, same⟩ := cookie_mem cookie
      subst same
      cases honest entry mem with
      | inr forged => simp [forged] at verified
      | inl known =>
        rw [mem_singleton.mp known, signed] at verified
        cases verified
        exact rejected r.now later passed
    have nothing : (refreshToken jwt j r).tokens = [] := by
      cases response : refreshToken jwt j r with
      | error status message => rfl
      | refreshed token expiresIn => simp [response, Response.succeeded] at failed
    simp only [nothing, append_nil] at plays
    have rest := ih r.now (fun now after => rejected now (later.trans after)) plays
    unfold successes at rest ⊢
    simpa [failed] using rest

theorem refreshClaims_rejected {config : JWTConfig} (rejects : RejectsRefreshTokens config)
    (random userID : GoString) {issued now : Int} (later : issued ≤ now) :
    (newJWTAuth config random).checkClaims now
        ((newJWTAuth config random).refreshClaims issued userID) ≠
      .ok ((newJWTAuth config random).refreshClaims issued userID) := by
  intro passed
  unfold checkClaims at passed
  split at passed
  · cases passed
  · rename_i fresh
    split at passed
    · cases passed
    · rename_i sameIssuer
      split at passed
      · cases passed
      · rename_i sameAudience
        cases rejects with
        | inl issuer => exact sameIssuer ⟨issuer, fun same => issuer same.symm⟩
        | inr rest =>
          cases rest with
          | inl audiences =>
            exact sameAudience ⟨length_pos_iff.mpr audiences, by
              simp [refreshClaims]⟩
          | inr expired =>
            have nonzero : config.refreshExpiry ≠ 0 := by omega
            simp only [not_not, newJWTAuth, refreshClaims, newNumericDate,
              if_neg nonzero, second] at fresh
            omega

theorem refreshClaims_accepted {config : JWTConfig} (accepts : ¬ RejectsRefreshTokens config)
    (random userID : GoString) : ∃ issued : Int, (newJWTAuth config random).checkClaims issued
        ((newJWTAuth config random).refreshClaims issued userID) =
      .ok ((newJWTAuth config random).refreshClaims issued userID) := by
  simp only [RejectsRefreshTokens, not_or, not_not, Int.not_lt] at accepts
  obtain ⟨issuer, audiences, expiry⟩ := accepts
  -- issued so that it expires on a full second
  have pos : 0 < (newJWTAuth config random).config.refreshExpiry := by
    simp only [newJWTAuth, second]
    split <;> omega
  refine ⟨second * (newJWTAuth config random).config.refreshExpiry -
    (newJWTAuth config random).config.refreshExpiry, ?_⟩
  generalize expires : (newJWTAuth config random).config.refreshExpiry = span at pos ⊢
  have fresh : second * span - span < newNumericDate (second * span) * second := by
    simp only [newNumericDate, second]
    omega
  have noIssuer : (newJWTAuth config random).config.issuer = [] := issuer
  have noAudience : (newJWTAuth config random).config.allowedAudiences = [] := audiences
  simp [checkClaims, refreshClaims, expires, fresh, noIssuer, noAudience]

theorem plays_replicate (token : Token) {clock : Int}
    (cookies : ∀ cookie ∈ r.cookies, cookie.2 = token) (start : clock ≤ r.now) (n : Nat) :
    ∀ known, token ∈ known → Plays jwt j known clock (List.replicate n r) := by
  induction n generalizing clock with
  | zero => exact fun _ _ => trivial
  | succ n ih =>
    intro known mem
    exact ⟨start, fun cookie listed => .inl (cookies cookie listed ▸ mem),
      ih le_rfl _ (mem_append_left _ mem)⟩

/-- For every configuration with a count that is not negative: the refreshes of one login are
    bounded by it exactly when refresh tokens are rejected from the start. -/
theorem boundedRefresh_iff (jwt : Jwt Token) {config : JWTConfig} (random : GoString)
    (count : 0 ≤ config.maxRefreshCount) :
    BoundedRefresh jwt config random ↔ RejectsRefreshTokens config := by
  constructor
  · intro bounded
    by_contra accepts
    obtain ⟨issued, passed⟩ := refreshClaims_accepted accepts random []
    let j := newJWTAuth config random
    let token := j.generateRefreshToken jwt issued []
    let r : Request Token := ⟨.post, [(j.config.refreshCookieName, token)], issued⟩
    have limit : 0 < j.config.maxRefreshCount := by
      simp only [j, newJWTAuth]
      split <;> omega
    have succeeded : (refreshToken jwt j r).succeeded = true := by
      refine refreshToken_succeeded_iff.mpr ⟨rfl, token, _, ?_, jwt.verified_signedString _ _, passed, limit⟩
      simp [r, Request.cookie]
    have plays : Plays jwt j [token] issued (List.replicate (config.maxRefreshCount.toNat + 1) r) :=
      plays_replicate token (by simp [r]) (le_refl issued) _ [token] (by simp)
    have all := bounded [] issued _ plays
    have many : successes jwt j (List.replicate (config.maxRefreshCount.toNat + 1) r) =
        config.maxRefreshCount.toNat + 1 := by
      unfold successes
      simp [succeeded]
    rw [many] at all
    omega
  · intro rejects userID issued requests plays
    rw [successes_of_rejected (jwt.verified_signedString _ _) requests issued
      (fun now later => refreshClaims_rejected rejects random userID later) plays]
    exact count

end Bound

def openJwt : Jwt (GoString × Claims) where
  signedString := fun secret claims => (secret, claims)
  verified := fun secret token => if token.1 = secret then some token.2 else none
  verified_signedString := fun _ _ => if_pos rfl

/-- The configuration of the server, with at most one refresh. -/
def plainConfig : JWTConfig where
  secret := ascii "s"
  tokenExpiry := 3600 * second
  refreshExpiry := 24 * 3600 * second
  cookieName := []
  refreshCookieName := []
  allowedAudiences := []
  issuer := []
  maxRefreshCount := 1

theorem boundedRefresh_iff_issuer :
    BoundedRefresh openJwt { plainConfig with issuer := ascii "monitor" } [] :=
  (boundedRefresh_iff openJwt [] (by decide)).mpr (by decide)

def plainAuth : JWTAuth := newJWTAuth plainConfig []

def adminToken : GoString × Claims := plainAuth.generateRefreshToken openJwt 0 (ascii "admin")

def adminRequest : Request (GoString × Claims) where
  method := .post
  cookies := [(ascii "refresh_token", adminToken)]
  now := 0

/-- One login, one allowed refresh, and the same token presented twice. -/
theorem refreshed_twice :
    Plays openJwt plainAuth [adminToken] 0 [adminRequest, adminRequest] ∧
      successes openJwt plainAuth [adminRequest, adminRequest] = 2 ∧
      ¬ BoundedRefresh openJwt plainConfig [] := by
  have plays : Plays openJwt plainAuth [adminToken] 0 [adminRequest, adminRequest] :=
    plays_replicate adminToken (by simp [adminRequest]) le_rfl 2 [adminToken] (by simp)
  have twice : successes openJwt plainAuth [adminRequest, adminRequest] = 2 := by
    decide +kernel
  exact ⟨plays, twice, fun bounded => by
    have := bounded (ascii "admin") 0 [adminRequest, adminRequest] plays
    change (successes openJwt plainAuth [adminRequest, adminRequest] : Int) ≤ 1 at this
    rw [twice] at this
    exact absurd this (by decide)⟩

end Monitor.Auth
