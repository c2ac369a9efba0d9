import SecureLedger.Handlers
import SecureLedger.Lib.Rfc3339
import Mathlib.Data.String.Basic

/-!
# Sample — a concrete set of crates and a few requests

The parameters of the model at concrete values, for the runs that show a result at work or where it
ends: a clock that reads the seconds of 2024-01-01 (UTC), printed and parsed as `chrono` does, and
two tokens, those a login of the two seeded users gets at midnight.
-/

namespace SecureLedger.Sample

open Atomic
open Rfc3339 (digit digit_lt)

/-- The seconds of 2024-01-01. -/
abbrev Sec := Fin 86400

def secOfNat (n : ℕ) : Sec := ⟨n % 86400, Nat.mod_lt n (by decide)⟩

instance sec_ofNat (n : ℕ) : OfNat Sec n := ⟨secOfNat n⟩

def twoDigits (n : ℕ) : List Char := [digit (n / 10), digit (n % 10)]

def ofDigits (a b : Char) : ℕ := 10 * (a.toNat - 48) + (b.toNat - 48)

def day : List Char := "2024-01-01T".toList

/-- `2024-01-01Thh:mm:ss+00:00`. -/
def toRfc3339 (t : Sec) : String :=
  String.ofList (day ++ (twoDigits (t.val / 3600) ++ [':'] ++
    twoDigits (t.val / 60 % 60) ++ [':'] ++ twoDigits (t.val % 60) ++ ['+', '0', '0', ':', '0', '0']))

def parseFromRfc3339 (s : String) : Option Sec :=
  match day.isPrefixOf? s.toList with
  | some [a, b, ':', c, d, ':', e, f, '+', '0', '0', ':', '0', '0'] =>
    let t := 3600 * ofDigits a b + 60 * ofDigits c d + ofDigits e f
    if h : t < 86400 then some ⟨t, h⟩ else none
  | _ => none

def chrono : Chrono Sec where
  toRfc3339 := toRfc3339
  parseFromRfc3339 := parseFromRfc3339
  addSeconds t n := secOfNat (t.val + n).toNat
  timestamp t := 1704067200 + t.val

theorem ofDigits_digit {n : ℕ} (h : n < 100) : ofDigits (digit (n / 10)) (digit (n % 10)) = n := by
  revert n
  decide +kernel

theorem chrono_roundTrips : chrono.RoundTrips := by
  intro t
  unfold chrono
  dsimp only
  unfold parseFromRfc3339 toRfc3339
  rw [String.toList_ofList, List.isPrefixOf?_eq_some_iff_append_eq.mpr rfl]
  have h1 := ofDigits_digit (n := t.val / 3600) (by omega)
  have h2 := ofDigits_digit (n := t.val / 60 % 60) (by omega)
  have h3 := ofDigits_digit (n := t.val % 60) (by omega)
  have ht : 3600 * (t.val / 3600) + 60 * (t.val / 60 % 60) + t.val % 60 = t.val := by omega
  simp only [twoDigits, List.cons_append, List.nil_append, h1, h2, h3, ht]
  exact dif_pos t.isLt

theorem twoDigits_lt {a b : ℕ} (hab : a < b) (hb : b < 100) (x y : List Char) :
    twoDigits a ++ x < twoDigits b ++ y := by
  simp only [twoDigits, List.cons_append, List.nil_append, List.cons_lt_cons_iff]
  rcases Nat.lt_or_ge (a / 10) (b / 10) with h | h
  · exact .inl (digit_lt _ (by omega) _ h)
  · have heq : a / 10 = b / 10 := by omega
    exact .inr ⟨by rw [heq], .inl (digit_lt _ (by omega) _ (by omega))⟩

theorem chrono_sortsText : chrono.SortsText := by
  intro t t' h
  have h : t.val < t'.val := h
  simp only [chrono, toRfc3339, String.lt_iff_toList_lt, String.toList_ofList]
  refine List.append_left_lt ?_
  simp only [List.append_assoc]
  rcases Nat.lt_or_ge (t.val / 3600) (t'.val / 3600) with h1 | h1
  · exact twoDigits_lt h1 (by omega) _ _
  · rw [show t.val / 3600 = t'.val / 3600 by omega]
    refine List.append_left_lt (List.append_left_lt ?_)
    rcases Nat.lt_or_ge (t.val / 60 % 60) (t'.val / 60 % 60) with h2 | h2
    · exact twoDigits_lt h2 (by omega) _ _
    · rw [show t.val / 60 % 60 = t'.val / 60 % 60 by omega]
      exact List.append_left_lt (List.append_left_lt (twoDigits_lt (by omega) (by omega) _ _))

def secret : String := "test-secret"

/-- The claims of a login at midnight. -/
def claimsOf (name role : String) : Claims := ⟨name, role, 1704070800, 1704067200⟩

/-- The tokens of the two logins. -/
def tokens : List (String × Claims) :=
  [("tok.admin", claimsOf "admin" "admin"), ("tok.user", claimsOf "user" "user")]

def jwt : Jwt where
  encode claims key :=
    match tokens.find? fun p => p.2 = claims ∧ key = secret with
    | some p => .ok p.1
    | none => .error "not a sample login"
  decode token key v now :=
    match tokens.lookup token with
    | some claims =>
      if key = secret ∧ (v.validateExp → now - v.leeway ≤ claims.exp) then .ok claims
      else .error "InvalidToken"
    | none => .error "InvalidToken"

theorem lookup_tokens : ∀ p ∈ tokens, tokens.lookup p.1 = some p.2 := by decide

theorem jwt_decode {token key : String} {v : Validation} {now : ℤ} {claims : Claims} :
    jwt.decode token key v now = .ok claims ↔ tokens.lookup token = some claims ∧ key = secret ∧
      (v.validateExp → now - v.leeway ≤ claims.exp) := by
  unfold jwt
  dsimp only
  cases tokens.lookup token with
  | none => simp
  | some claims₀ =>
    dsimp only
    split
    · next h =>
      constructor
      · rintro ⟨⟩
        exact ⟨rfl, h⟩
      · rintro ⟨⟨⟩, -⟩
        rfl
    · next h =>
      constructor
      · rintro ⟨⟩
      · rintro ⟨⟨⟩, h'⟩
        exact absurd h' h

theorem jwt_roundTrips : jwt.RoundTrips := by
  intro claims key token v now claims' he hd
  unfold jwt at he
  dsimp only at he
  split at he
  · next p hp =>
    cases he
    have hmem := List.mem_of_find?_eq_some hp
    have hclaims : p.2 = claims ∧ key = secret := by simpa using List.find?_some hp
    obtain ⟨hlookup, -⟩ := jwt_decode.mp hd
    rw [lookup_tokens p hmem, hclaims.1] at hlookup
    exact (Option.some.inj hlookup).symm
  · cases he

theorem jwt_onlyExpires : jwt.OnlyExpires := by
  intro token key v now now' claims _ hle hd
  obtain ⟨hlookup, hkey, hexp⟩ := jwt_decode.mp hd
  exact jwt_decode.mpr ⟨hlookup, hkey, fun hv => by have := hexp hv; omega⟩

def argon2 : Argon2 where
  hash salt plain := .ok ("$argon2id$" ++ salt ++ "$" ++ plain)
  isPhc stored := "$argon2id$".toList.isPrefixOf stored.toList
  verify plain stored := ("$" ++ plain).toList.isSuffixOf stored.toList

def crates : Crates Sec := ⟨chrono, jwt, argon2⟩

def users : List (String × User) :=
  [("admin", ⟨"admin", "$argon2id$s1$admin123", .admin⟩), ("user", ⟨"user", "$argon2id$s2$user123", .user⟩)]

theorem users_seeded : seedUsers crates "s1" "s2" = some users := by decide

def state : AppState := ⟨secret, users⟩

def bytes (s : String) : List UInt8 := s.toList.map fun c => UInt8.ofNat c.toNat

/-- A request bearing `token`. -/
def withToken (token : String) (op : Op) (now : Sec) : Arrival Sec :=
  ⟨[("authorization", bytes ("Bearer " ++ token))], op, now⟩

/-- An input of a call that does not fail. -/
def good (now : Sec) (uuid : String) : Input Sec := ⟨now, uuid, none⟩

def bad (now : Sec) (uuid : String) : Input Sec := ⟨now, uuid, some (.sqlite "disk I/O error")⟩

def start : ServerWorld Sec := World.init Db.empty

def runOn (ls : List (World.Label (Arrival Sec) (Input Sec))) : ServerWorld Sec :=
  start.run (server crates state) ls

theorem runOn_reach (ls : List (World.Label (Arrival Sec) (Input Sec))) :
    Reach (server crates state) Db.empty (runOn ls) := start.run_steps ls

end SecureLedger.Sample
