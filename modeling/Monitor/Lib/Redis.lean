import Monitor.Lib.Json

/-! # Redis strings, hashes and sorted sets

The keyspace of a Redis server with the commands on strings, hashes and sorted sets, as
their documentation specifies them, and pipelines of such commands. Keys do not expire. A
score is a `double`; all scores here are integers, so a score is the integer value that
the nearest `double` has.
-/

namespace Monitor.Redis

open GoText Json List Function

section Double

/-- Division rounded to the nearest integer, and to an even one in the middle. -/
def divRound (n d : Nat) : Nat :=
  let q := n / d
  let r := n % d
  if 2 * r < d ∨ (2 * r = d ∧ q % 2 = 0) then q else q + 1

def natDouble (n : Nat) : Nat :=
  let d := 2 ^ (Nat.log2 n - 52)
  divRound n d * d

/-- The value of the `double` nearest to an integer. -/
def double (z : Int) : Int := z.sign * natDouble z.natAbs

theorem natDouble_of_lt {n : Nat} (small : n < 2 ^ 53) : natDouble n = n := by
  have unit : Nat.log2 n - 52 = 0 := by
    by_cases zero : n = 0
    · rw [zero]
      rfl
    · have := (Nat.log2_lt zero).mpr small
      omega
  simp only [natDouble, unit, pow_zero, divRound, Nat.div_one, Nat.mod_one, Nat.mul_one]
  rfl

theorem le_natDouble {n : Nat} (large : 2 ^ 53 ≤ n) : 2 ^ 53 ≤ natDouble n := by
  have pos : n ≠ 0 := by omega
  have bits : 53 ≤ Nat.log2 n := (Nat.le_log2 pos).mpr large
  obtain ⟨e, size⟩ : ∃ e, Nat.log2 n = e + 53 := ⟨Nat.log2 n - 53, by omega⟩
  have below : 2 ^ (e + 53) ≤ n := size ▸ Nat.log2_self_le pos
  have quotient : 2 ^ 52 ≤ n / 2 ^ (e + 1) := by
    rw [Nat.le_div_iff_mul_le (by positivity), ← pow_add]
    exact le_trans (Nat.pow_le_pow_right (by decide) (by omega)) below
  have rounded : 2 ^ 52 ≤ divRound n (2 ^ (e + 1)) := by
    simp only [divRound]
    split <;> omega
  have unit : Nat.log2 n - 52 = e + 1 := by omega
  calc 2 ^ 53 = 2 ^ 52 * 2 := by norm_num
    _ ≤ divRound n (2 ^ (e + 1)) * 2 ^ (e + 1) :=
        Nat.mul_le_mul rounded (by rw [pow_succ]; exact Nat.le_mul_of_pos_left 2 (by positivity))
    _ = natDouble n := by rw [natDouble, unit]

/-- An integer that is a `double` and whose neighbours are. -/
def Exact (z : Int) : Prop := -2 ^ 53 < z ∧ z < 2 ^ 53

instance (z : Int) : Decidable (Exact z) := inferInstanceAs (Decidable (_ ∧ _))

theorem double_of_exact {z : Int} (exact_ : Exact z) : double z = z := by
  have small : z.natAbs < 2 ^ 53 := by
    obtain ⟨low, high⟩ := exact_
    omega
  rw [double, natDouble_of_lt small, Int.sign_mul_natAbs]

theorem double_cases (z : Int) : double z = z ∨ (2 ^ 53 ≤ z ∧ 2 ^ 53 ≤ double z) ∨
    (z ≤ -2 ^ 53 ∧ double z ≤ -2 ^ 53) := by
  by_cases small : z.natAbs < 2 ^ 53
  · exact .inl (double_of_exact ⟨by omega, by omega⟩)
  · have rounded := le_natDouble (Nat.le_of_not_lt small)
    rcases lt_or_ge z 0 with negative | pos
    · rw [double, Int.sign_eq_neg_one_of_neg negative]
      omega
    · rw [double, Int.sign_eq_one_of_pos (by omega)]
      omega

theorem double_le_iff {z : Int} (bound : Int) (exact_ : Exact z) : double bound ≤ z ↔ bound ≤ z := by
  obtain ⟨low, high⟩ := exact_
  rcases double_cases bound with same | ⟨_, _⟩ | ⟨_, _⟩ <;> omega

theorem le_double_iff {z : Int} (bound : Int) (exact_ : Exact z) : z ≤ double bound ↔ z ≤ bound := by
  obtain ⟨low, high⟩ := exact_
  rcases double_cases bound with same | ⟨_, _⟩ | ⟨_, _⟩ <;> omega

end Double

inductive Entry where
  | string (value : GoString)
  | hash (fields : List (GoString × GoString))
  /-- Scores and members, in the order of the scores and then of the members. -/
  | sortedSet (members : List (Int × GoString))

abbrev Store := GoString → Option Entry

def wrongType : GoString :=
  ascii "WRONGTYPE Operation against a key holding the wrong kind of value"

def asHash : Option Entry → Option (List (GoString × GoString))
  | none => some []
  | some (.hash fields) => some fields
  | some _ => none

def asSortedSet : Option Entry → Option (List (Int × GoString))
  | none => some []
  | some (.sortedSet members) => some members
  | some _ => none

def insertMember (entry : Int × GoString) : List (Int × GoString) → List (Int × GoString)
  | [] => [entry]
  | first :: rest =>
    if entry.1 < first.1 ∨ (entry.1 = first.1 ∧ before entry.2 first.2) then
      entry :: first :: rest
    else
      first :: insertMember entry rest

/-- A member keeps one score. -/
def putMember (score : Int) (member : GoString) (members : List (Int × GoString)) :
    List (Int × GoString) :=
  insertMember (score, member) (members.filter (·.2 ≠ member))

inductive Command where
  | set (key value : GoString)
  | hset (key field value : GoString)
  | zadd (key : GoString) (score : Int) (member : GoString)
  | zrem (key member : GoString)
  | del (key : GoString)
  | expire (key : GoString) (seconds : Nat)

/-- The effect of a command, and its error. -/
def Command.run (db : Store) : Command → Store × Option GoString
  | .set key value => (update db key (some (.string value)), none)
  | .hset key field value =>
    match asHash (db key) with
    | some fields => (update db key (some (.hash (setKey field value fields))), none)
    | none => (db, some wrongType)
  | .zadd key score member =>
    match asSortedSet (db key) with
    | some members =>
      (update db key (some (.sortedSet (putMember score member members))), none)
    | none => (db, some wrongType)
  | .zrem key member =>
    match asSortedSet (db key) with
    | some members =>
      let left := members.filter (·.2 ≠ member)
      (update db key (if left.isEmpty then none else some (.sortedSet left)), none)
    | none => (db, some wrongType)
  | .del key => (update db key none, none)
  | .expire _ _ => (db, none)

/-- A pipeline runs all its commands and reports the first error. -/
def exec : List Command → Store → Store × Option GoString
  | [], db => (db, none)
  | command :: commands, db =>
    let (db, err) := command.run db
    let (db, later) := exec commands db
    (db, err <|> later)

def redisNil : GoString := ascii "redis: nil"

def get (db : Store) (key : GoString) : Except GoString GoString :=
  match db key with
  | none => .error redisNil
  | some (.string value) => .ok value
  | some _ => .error wrongType

/-- A pipeline of `GET`: the reply to each key, and the first error. -/
def execGet (db : Store) (keys : List GoString) :
    List (Except GoString GoString) × Option GoString :=
  let replies := keys.map (get db)
  (replies, replies.findSome? fun
    | .error err => some err
    | .ok _ => none)

def hgetall (db : Store) (key : GoString) : Except GoString (List (GoString × GoString)) :=
  match asHash (db key) with
  | some fields => .ok fields
  | none => .error wrongType

/-- `ZRANGEBYSCORE` with bounds that are sent as integers. -/
def zrangeByScore (db : Store) (key : GoString) (min max : Int) : Except GoString (List GoString) :=
  match asSortedSet (db key) with
  | some members =>
    .ok ((members.filter fun e => double min ≤ e.1 ∧ e.1 ≤ double max).map (·.2))
  | none => .error wrongType

section Effects

theorem exec_append (first second : List Command) : ∀ db : Store,
    exec (first ++ second) db =
      ((exec second (exec first db).1).1, (exec first db).2 <|> (exec second (exec first db).1).2) := by
  induction first with
  | nil => exact fun _ => rfl
  | cons command first ih =>
    intro db
    simp only [cons_append, exec, ih]
    cases (command.run db).2 with
    | none | some message => rfl

def setFields (pairs fields : List (GoString × GoString)) : List (GoString × GoString) :=
  pairs.foldl (fun fields pair => setKey pair.1 pair.2 fields) fields

theorem getKey_setFields {k : GoString} : ∀ {pairs : List (GoString × GoString)},
    k ∉ pairs.map (·.1) → ∀ fields : List (GoString × GoString),
      getKey k (setFields pairs fields) = getKey k fields := by
  intro pairs
  induction pairs with
  | nil => exact fun _ _ => rfl
  | cons pair pairs ih =>
    intro absent fields
    rw [map_cons, mem_cons, not_or] at absent
    rw [setFields, foldl_cons, ← setFields, ih absent.2, getKey_setKey,
      if_neg (Ne.symm absent.1)]

variable {pairs : List (GoString × GoString)}

theorem getKey_setFields_or : (pairs.map (·.1)).Nodup →
    ∀ (k : GoString) (fields : List (GoString × GoString)),
      getKey k (setFields pairs fields) = (getKey k pairs <|> getKey k fields) := by
  induction pairs with
  | nil => exact fun _ _ _ => rfl
  | cons pair pairs ih =>
    intro distinct k fields
    obtain ⟨new, later⟩ := nodup_cons.mp distinct
    rw [setFields, foldl_cons, ← setFields, ih later, getKey_setKey, getKey_cons]
    split
    · rename_i same
      subst same
      rw [getKey_of_not_mem new]
      rfl
    · rfl

theorem setFields_ordered {fields : List (GoString × GoString)} (ordered : KeysOrdered fields)
    (pairs : List (GoString × GoString)) : KeysOrdered (setFields pairs fields) := by
  induction pairs generalizing fields with
  | nil => exact ordered
  | cons pair pairs ih => exact ih (ordered.setKey pair.1 pair.2)

theorem exec_hset {key : GoString} (pairs : List (GoString × GoString)) :
    ∀ {db : Store} {fields : List (GoString × GoString)} (pair : GoString × GoString),
      asHash (db key) = some fields →
      exec ((pair :: pairs).map fun pair => .hset key pair.1 pair.2) db =
        (update db key (some (.hash (setFields (pair :: pairs) fields))), none) := by
  induction pairs with
  | nil =>
    intro db fields pair found
    simp only [map_cons, map_nil, exec, Command.run, found]
    rfl
  | cons next pairs ih =>
    intro db fields pair found
    have again : asHash (update db key (some (.hash (setKey pair.1 pair.2 fields))) key) =
        some (setKey pair.1 pair.2 fields) := by
      rw [update_self, asHash]
    rw [map_cons, exec, Command.run, found]
    simp only [ih next again, update_idem]
    rfl

theorem exec_set : (pairs.map (·.1)).Nodup → ∀ db : Store,
    exec (pairs.map fun pair => .set pair.1 pair.2) db =
      (fun key => (getKey key pairs).elim (db key) fun value => some (.string value), none) := by
  induction pairs with
  | nil => exact fun _ _ => rfl
  | cons pair pairs ih =>
    intro distinct db
    obtain ⟨new, later⟩ := nodup_cons.mp distinct
    simp only [map_cons, exec, Command.run, ih later, Prod.mk.injEq]
    refine ⟨funext fun key => ?_, rfl⟩
    rw [getKey_cons]
    split
    · rename_i same
      subst same
      rw [getKey_of_not_mem new, Option.elim_none, update_self, Option.elim_some]
    · rename_i other
      rw [update_of_ne (Ne.symm other)]

theorem asSortedSet_left (members : List (Int × GoString)) :
    asSortedSet (if members.isEmpty then none else some (.sortedSet members)) = some members := by
  cases members with
  | nil | cons mem members => rfl

variable {members : List (Int × GoString)}

theorem mem_insertMember {entry e : Int × GoString} :
    e ∈ insertMember entry members ↔ e = entry ∨ e ∈ members := by
  induction members with
  | nil => rw [insertMember, mem_singleton]; simp
  | cons first rest ih =>
    rw [insertMember]
    split
    · exact mem_cons
    · rw [mem_cons, ih, mem_cons, or_left_comm]

abbrev Increasing (members : List (Int × GoString)) : Prop :=
  members.Pairwise fun a b => a.1 < b.1

theorem Increasing.insertMember {entry : Int × GoString}
    (increasing : Increasing members) (new : ∀ e ∈ members, e.1 ≠ entry.1) :
    Increasing (insertMember entry members) := by
  induction members with
  | nil => exact pairwise_singleton _ _
  | cons first rest ih =>
    obtain ⟨above, sorted⟩ := pairwise_cons.mp increasing
    have other := new first mem_cons_self
    rw [Redis.insertMember]
    split
    · rename_i earlier
      have less : entry.1 < first.1 := by
        rcases earlier with less | ⟨same, _⟩
        · exact less
        · exact absurd same.symm other
      refine pairwise_cons.mpr ⟨?_, increasing⟩
      intro e mem
      rcases mem_cons.mp mem with rfl | later
      · exact less
      · exact less.trans (above e later)
    · rename_i notEarlier
      refine pairwise_cons.mpr
        ⟨?_, ih sorted fun e mem => new e (mem_cons_of_mem _ mem)⟩
      intro e mem
      rcases mem_insertMember.mp mem with rfl | later
      · exact lt_of_le_of_ne (le_of_not_gt fun less => notEarlier (.inl less)) other
      · exact above e later

theorem Increasing.ext {first second : List (Int × GoString)} (increasing : Increasing first)
    (increasing' : Increasing second) (same : ∀ e, e ∈ first ↔ e ∈ second) : first = second := by
  exact increasing.eq_of_mem_iff increasing' same

end Effects

end Monitor.Redis
