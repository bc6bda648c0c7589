import Monitor.Auth.Handler
import Monitor.Auth.Refresh

/-! # Whom a refreshed token is for

A login token has the role of the user, the issuer and the audiences of the configuration. A refresh
token has none of these, so it is refused where an issuer or an audience is configured, and elsewhere
the access token that is issued for it has no role.
-/

namespace Monitor.Auth

open GoText JWTAuth

section Identity

variable {Token : Type} (jwt : Jwt Token) (j : JWTAuth)

def carried (token : Token) : Option (GoString × GoString) :=
  (jwt.verified j.config.secret token).map fun claims => (claims.userID, claims.role)

/-- The refresh token is accepted, and what is issued for it carries what the login token carries. -/
def KeepsIdentity (issued now : Int) (userID role : GoString) : Prop :=
  (∃ claims, j.validateRefreshToken jwt now (j.generateRefreshToken jwt issued userID) = .ok claims) ∧
  ∀ r : Request Token, r.method = .post → r.now = now →
    r.cookie j.config.refreshCookieName = some (j.generateRefreshToken jwt issued userID) →
    ∃ token expiresIn, refreshToken jwt j r = .refreshed token expiresIn ∧
      ∀ loginTime, carried jwt j token = carried jwt j (j.generateToken jwt loginTime userID role)

theorem carried_generateToken (now : Int) (userID role : GoString) (refreshCount : Int) :
    carried jwt j (j.generateTokenWithRefreshCount jwt now userID role refreshCount) = some
    (userID, role) := by
  rw [carried, generateTokenWithRefreshCount, jwt.verified_signedString]
  rfl

theorem validateRefreshToken_eq (count : 0 < j.config.maxRefreshCount) {issued now : Int} (userID : GoString)
    (unexpired : now < (j.refreshClaims issued userID).expiresAt * second) :
    j.validateRefreshToken jwt now (j.generateRefreshToken jwt issued userID) =
      if j.config.issuer ≠ [] then .error .invalidIssuer
      else if j.config.allowedAudiences ≠ [] then .error .invalidAudience
      else .ok (j.refreshClaims issued userID) := by
  unfold validateRefreshToken validateToken generateRefreshToken
  rw [jwt.verified_signedString]
  by_cases issuer : j.config.issuer = []
  · by_cases audiences : j.config.allowedAudiences = []
    · simp only [checkClaims, unexpired, issuer, audiences]
      simp [refreshClaims, count]
    · have conf : j.config.allowedAudiences.length > 0 := List.length_pos_iff.mpr audiences
      simp only [checkClaims, unexpired, issuer]
      simp [refreshClaims, conf, audiences]
  · simp only [checkClaims, unexpired]
    simp [refreshClaims, issuer, Ne.symm issuer]

theorem refreshToken_carried {issued now : Int} {userID : GoString}
    (accepted : j.validateRefreshToken jwt now (j.generateRefreshToken jwt issued userID) =
      .ok (j.refreshClaims issued userID)) {r : Request Token} (post : r.method = .post) (time : r.now = now)
    (cookie : r.cookie j.config.refreshCookieName = some (j.generateRefreshToken jwt issued userID)) :
    ∃ token expiresIn, refreshToken jwt j r = .refreshed token expiresIn ∧
      carried jwt j token = some (userID, []) := by
  refine ⟨_, j.config.tokenExpiry.tdiv second, ?_, carried_generateToken jwt j now userID [] 1⟩
  unfold refreshToken
  rw [if_neg (by simp [post]), cookie]
  simp only [time, accepted]
  rfl

end Identity

/-- For every configuration that allows a refresh, every user and role and every unexpired refresh token:
    it is accepted and exchanged for a token with the user and the role of the login exactly when neither
    an issuer nor an audience is configured and the role is empty. -/
theorem keepsIdentity_iff {Token : Type} (jwt : Jwt Token) {config : JWTConfig} (random : GoString)
    (count : 1 ≤ config.maxRefreshCount) (userID role : GoString) {issued now : Int}
    (unexpired : now < ((newJWTAuth config random).refreshClaims issued userID).expiresAt * second) :
    KeepsIdentity jwt (newJWTAuth config random) issued now userID role ↔
      config.issuer = [] ∧ config.allowedAudiences = [] ∧ role = [] := by
  generalize made : newJWTAuth config random = j at unexpired ⊢
  have issuer : j.config.issuer = config.issuer := by rw [← made]; rfl
  have audiences : j.config.allowedAudiences = config.allowedAudiences := by rw [← made]; rfl
  have limit : 0 < j.config.maxRefreshCount := by
    rw [← made]
    simp only [newJWTAuth]
    split <;> omega
  have result := validateRefreshToken_eq jwt j limit userID unexpired
  rw [issuer, audiences] at result
  constructor
  · intro keeps
    obtain ⟨⟨claims, accepted⟩, exchanged⟩ := keeps
    rw [result] at accepted
    by_cases noIssuer : config.issuer = []
    · by_cases noAudience : config.allowedAudiences = []
      · simp only [noIssuer, noAudience, ne_eq, not_true_eq_false, if_false] at result
        let r : Request Token := ⟨.post, [(j.config.refreshCookieName,
          j.generateRefreshToken jwt issued userID)], now⟩
        have cookie : r.cookie j.config.refreshCookieName = some
          (j.generateRefreshToken jwt issued userID) := by
          simp [r, Request.cookie]
        obtain ⟨token, expiresIn, answer, same⟩ := exchanged r rfl rfl cookie
        obtain ⟨token', expiresIn', answer', without⟩ := refreshToken_carried jwt j result rfl rfl cookie
        rw [answer] at answer'
        cases answer'
        have both := same 0
        rw [without, JWTAuth.generateToken, carried_generateToken] at both
        cases both
        exact ⟨noIssuer, noAudience, rfl⟩
      · simp [noIssuer, noAudience] at accepted
    · simp [noIssuer] at accepted
  · intro plain
    obtain ⟨noIssuer, noAudience, noRole⟩ := plain
    simp only [noIssuer, noAudience, ne_eq, not_true_eq_false, if_false] at result
    refine ⟨⟨_, result⟩, fun r post time cookie => ?_⟩
    obtain ⟨token, expiresIn, answer, without⟩ := refreshToken_carried jwt j result post time cookie
    refine ⟨token, expiresIn, answer, fun loginTime => ?_⟩
    rw [without, JWTAuth.generateToken, carried_generateToken, noRole]

theorem keepsIdentity_iff_plain :
    (1 : Int) < (plainAuth.refreshClaims 0 (ascii "guest")).expiresAt * second ∧
      KeepsIdentity openJwt plainAuth 0 1 (ascii "guest") [] := by
  have unexpired : (1 : Int) < (plainAuth.refreshClaims 0 (ascii "guest")).expiresAt * second :=
    by decide +kernel
  exact ⟨unexpired, (keepsIdentity_iff openJwt [] (by decide) (ascii "guest") [] unexpired).mpr ⟨rfl, rfl, rfl⟩⟩

def issuerAuth : JWTAuth := newJWTAuth { plainConfig with issuer := ascii "monitor" } []

/-- The role of the administrator is lost, and with an issuer the token is not even accepted. -/
theorem adminToken_loses_role :
    plainAuth.validateRefreshToken openJwt 0 adminToken = .ok (plainAuth.refreshClaims 0 (ascii "admin")) ∧
      ¬ KeepsIdentity openJwt plainAuth 0 0 (ascii "admin") (ascii "admin") ∧
      issuerAuth.validateRefreshToken openJwt 0 (issuerAuth.generateRefreshToken openJwt 0 (ascii "admin")) =
        .error .invalidIssuer := by
  have accepted : plainAuth.validateRefreshToken openJwt 0 adminToken =
      .ok (plainAuth.refreshClaims 0 (ascii "admin")) := rfl
  have cookie : adminRequest.cookie plainAuth.config.refreshCookieName = some adminToken := by decide
  refine ⟨accepted, fun keeps => ?_, rfl⟩
  obtain ⟨token, expiresIn, answer, same⟩ := keeps.2 adminRequest rfl rfl cookie
  obtain ⟨token', expiresIn', answer', without⟩ :=
    refreshToken_carried openJwt plainAuth accepted rfl rfl cookie
  rw [answer] at answer'
  cases answer'
  have both := same 0
  rw [without, JWTAuth.generateToken, carried_generateToken] at both
  exact absurd both (by decide)

end Monitor.Auth
