import Monitor.Lib.JsonText
import Monitor.Queue.MessageQueue

/-! # Where the messages are

A published message should always be in exactly one place. `Quiet` is what every run
keeps: stored messages are texts of byte slices, which do not decode to a message, so a
consumer never gets past loading one. A run therefore conserves its messages exactly as
long as no consumer loads what it has popped.
-/

namespace Monitor.Queue

open GoText Json List Function Option

section Keys

variable {q : Config}

theorem Kind.name_append_inj : ∀ {kind kind' : Kind} {a b : GoString},
    kind.name ++ a = kind'.name ++ b → kind = kind' ∧ a = b := by
  intro kind kind' a b same
  cases kind <;> cases kind' <;> simp_all [Kind.name, ascii]

theorem Config.key_inj {kind kind' : Kind} {a b : GoString} :
    q.key kind a = q.key kind' b ↔ kind = kind' ∧ a = b := by
  constructor
  · intro same
    exact Kind.name_append_inj (append_cancel_left (append_cancel_left same))
  · rintro ⟨rfl, rfl⟩
    rfl

theorem Config.key_ne {kind kind' : Kind} (apart : kind ≠ kind') (a b : GoString) :
    q.key kind a ≠ q.key kind' b :=
  fun same => apart (Config.key_inj.mp same).1

end Keys

section Texts

theorem parse_text (s : GoString) : parse (write (.string s)) = some (.string (sanitize s)) :=
  parse_write (by simp only [Plain])

theorem unmarshalString_text (s : GoString) :
    unmarshalString (write (.string s)) = some (sanitize s) := by
  rw [unmarshalString, parse_text]
  rfl

theorem unmarshal_text (env : Env) (s : GoString) :
    Message.unmarshal env (write (.string s)) = none := by
  rw [Message.unmarshal, parse_text]
  rfl

end Texts

section Places

variable (q : Config)

/-- Whether a thread holds a message that is in no list. -/
def Thread.carries (serial : Nat) : Thread → Bool
  | .loading _ _ n | .moving _ _ _ n | .returning _ _ n => n == serial
  | _ => false

def State.countIn (s : State) (key : GoString) (serial : Nat) : Nat :=
  (s.lists key).countP (·.serial == serial)

def State.carriers (s : State) (serial : Nat) : Nat := s.threads.countP (Thread.carries serial)

/-- The number of places of a published message: waiting in its topic, held by a consumer (in its
    hands or in the processing list), dead, or acked. -/
def State.places (s : State) (serial : Nat) (topic id : GoString) : Nat :=
  s.countIn (q.key .queue topic) serial +
    (s.carriers serial + s.countIn (q.key .processing id) serial) +
    s.countIn (q.key .dead topic) serial + s.acked.count serial

def Conserved (s : State) : Prop :=
  ∀ serial topic id, s.published[serial]? = some (topic, id) → s.places q serial topic id = 1

/-- Whether an action makes a consumer load the message it has popped. -/
def Loads (s : State) : Action → Prop
  | .run i _ => ∃ topic id serial, s.threads[i]? = some (.loading topic id serial)
  | _ => False

end Places

def Early (published : List (GoString × GoString)) : Thread → Prop
  | .storing _ m => m.id ≠ []
  | .pushing _ id => id ≠ []
  | .polling _ => True
  | .loading topic _ serial => ∃ id, published[serial]? = some (topic, id)
  | .acking none _ | .nacking none _ | .finished => True
  | _ => False

structure Quiet (q : Config) (s : State) : Prop where
  stored : ∀ key value, s.strings key = some value → ∃ text, value = write (.string text)
  queued : ∀ key entry, entry ∈ s.lists key → ∃ topic id, key = q.key .queue topic ∧
    s.published[entry.serial]? = some (topic, id) ∧ id ≠ [] ∧ entry.text = write (.string id)
  threads : ∀ thread ∈ s.threads, Early s.published thread
  acked : s.acked = []

section Steps

variable {env : Env} {q : Config} {s t : State}

theorem init_quiet : Quiet q init where
  stored := by
    intro key value found
    cases found
  queued := by
    intro key entry mem
    cases mem
  threads := by
    intro thread mem
    cases mem
  acked := rfl

theorem Quiet.lists_nil (h : Quiet q s) {kind : Kind} (other : kind ≠ .queue) (suffix : GoString) :
    s.lists (q.key kind suffix) = [] := by
  rw [eq_nil_iff_forall_not_mem]
  intro entry mem
  obtain ⟨topic, _, same, _⟩ := h.queued _ entry mem
  exact Config.key_ne other _ _ same

variable {published : List (GoString × GoString)} {thread : Thread}

theorem Early.mono
    (h : Early published thread) (more : List (GoString × GoString)) :
    Early (published ++ more) thread := by
  cases thread with
  | loading topic id serial =>
    obtain ⟨id', found⟩ := h
    have lt := (List.getElem?_eq_some_iff.mp found).1
    exact ⟨id', by rw [getElem?_append_left lt, found]⟩
  | acking back id =>
    cases back with
    | none => trivial
    | some topic => exact h
  | nacking back id =>
    cases back with
    | none => trivial
    | some topic => exact h
  | storing | pushing | polling | moving | removing | handling | returning | finished => exact h

theorem advance_loading (h : Quiet q s) (handled : Bool) (topic id : GoString) (serial : Nat) :
    advance env q s handled (.loading topic id serial) = (s, .polling topic) := by
  simp only [advance]
  cases found : s.strings (q.key .message id) with
  | none => rfl
  | some data =>
    obtain ⟨text, rfl⟩ := h.stored _ _ found
    simp only [unmarshal_text]

theorem advance_nacking (h : Quiet q s) (handled : Bool) (id : GoString) :
    advance env q s handled (.nacking none id) = (s, .finished) := by
  simp only [advance, h.lists_nil (show Kind.processing ≠ .queue by decide)]
  rfl

theorem advance_polling (env : Env) (h : Quiet q s) (handled : Bool) (topic : GoString) :
    (s.lists (q.key .queue topic) = [] ∧
        advance env q s handled (.polling topic) = (s, .polling topic)) ∨
      ∃ older entry id id', s.lists (q.key .queue topic) = older ++ [entry] ∧
        s.published[entry.serial]? = some (topic, id') ∧ advance env q s handled (.polling topic) =
          (s.dropLast (q.key .queue topic), .loading topic id entry.serial) := by
  simp only [advance]
  rcases eq_nil_or_concat (s.lists (q.key .queue topic)) with empty | ⟨older, entry, shape⟩
  · exact .inl ⟨empty, by simp only [empty, getLast?_nil]⟩
  · rw [concat_eq_append] at shape
    obtain ⟨topic', id, sameKey, found, some_, text⟩ := h.queued (q.key .queue topic) entry
      (by rw [shape]; exact mem_append_right _ (mem_singleton_self entry))
    obtain ⟨_, rfl⟩ := Config.key_inj.mp sameKey
    refine .inr ⟨older, entry, sanitize id, id, shape, found, ?_⟩
    simp only [shape, getLast?_concat, text, unmarshalString_text]
    rw [if_neg (by simpa using sanitize_ne_nil some_)]

/-- What a step does to the messages, from a quiet state. -/
inductive Effect (q : Config) (s : State) (action : Action) (t : State) : Prop
  | spawn (thread : Thread) (early : Early s.published thread)
      (free : ∀ serial, thread.carries serial = false) (lists : t.lists = s.lists)
      (published : t.published = s.published) (threads : t.threads = s.threads ++ [thread])
  | move (i : Nat) (old new : Thread) (here : s.threads[i]? = some old)
      (early : Early s.published new)
      (free : ∀ serial, old.carries serial = false ∧ new.carries serial = false)
      (lists : t.lists = s.lists) (published : t.published = s.published)
      (threads : t.threads = s.threads.set i new)
  | publish (i : Nat) (topic id : GoString) (here : s.threads[i]? = some (.pushing topic id))
      (some_ : id ≠ [])
      (lists : t.lists = update s.lists (q.key .queue topic)
        (⟨write (.string id), s.published.length⟩ :: s.lists (q.key .queue topic)))
      (published : t.published = s.published ++ [(topic, id)])
      (threads : t.threads = s.threads.set i .finished)
  | pop (i : Nat) (topic id id' : GoString) (older : List Entry) (entry : Entry)
      (here : s.threads[i]? = some (.polling topic))
      (shape : s.lists (q.key .queue topic) = older ++ [entry])
      (found : s.published[entry.serial]? = some (topic, id'))
      (lists : t.lists = update s.lists (q.key .queue topic) older)
      (published : t.published = s.published)
      (threads : t.threads = s.threads.set i (.loading topic id entry.serial))
  | load (i : Nat) (topic id : GoString) (serial : Nat) (loads : Loads s action)
      (here : s.threads[i]? = some (.loading topic id serial)) (lists : t.lists = s.lists)
      (published : t.published = s.published) (threads : t.threads = s.threads.set i (.polling topic))

/-- Storing is confined to texts, and nothing is acked. -/
structure Tame (s t : State) : Prop where
  strings : ∀ key value, t.strings key = some value →
    s.strings key = some value ∨ ∃ text, value = write (.string text)
  acked : t.acked = s.acked

theorem Tame.of_eq (strings : t.strings = s.strings) (acked : t.acked = s.acked) : Tame s t :=
  ⟨fun key value found => .inl (by rwa [strings] at found), acked⟩

theorem prepare_id (topic : GoString) (message : Message) (nanos : Int) (now : GoString) :
    (prepare topic message nanos now).id ≠ [] := by
  simp only [prepare]
  split
  · exact append_ne_nil_of_left_ne_nil (append_ne_nil_of_right_ne_nil _ (by decide)) _
  · rename_i given
    simpa using given

theorem advance_effect (h : Quiet q s) {i : Nat}
    (here : s.threads[i]? = some thread) (handled : Bool)
    (after : t = { (advance env q s handled thread).1 with
      threads := (advance env q s handled thread).1.threads.set i
        (advance env q s handled thread).2 }) : Effect q s (.run i handled) t ∧ Tame s t := by
  have early := h.threads thread (mem_of_getElem? here)
  subst after
  cases thread with
  | storing topic m =>
    refine ⟨.move i _ (.pushing topic m.id) here early (fun _ => ⟨rfl, rfl⟩) rfl rfl rfl, ?_, rfl⟩
    intro key value found
    simp only [advance, State.set, update_apply] at found
    split at found
    · cases found
      exact .inr ⟨_, rfl⟩
    · exact .inl found
  | pushing topic id => exact ⟨.publish i topic id here early rfl rfl rfl, .of_eq rfl rfl⟩
  | polling topic =>
    rcases advance_polling env h handled topic with
      ⟨_, same⟩ | ⟨older, entry, id, id', shape, found, popped⟩
    · rw [same]
      exact ⟨.move i _ (.polling topic) here trivial (fun _ => ⟨rfl, rfl⟩) rfl rfl rfl, .of_eq rfl rfl⟩
    · rw [popped]
      refine ⟨.pop i topic id id' older entry here shape found ?_ rfl rfl, .of_eq rfl rfl⟩
      simp only [State.dropLast, shape, dropLast_concat]
  | loading topic id serial =>
    rw [advance_loading h]
    exact ⟨.load i topic id serial ⟨topic, id, serial, here⟩ here rfl rfl rfl, .of_eq rfl rfl⟩
  | acking back id =>
    cases back with
    | some topic => cases early
    | none =>
      have empty := h.lists_nil (show Kind.processing ≠ .queue by decide) id
      refine ⟨.move i _ .finished here trivial (fun _ => ⟨rfl, rfl⟩) ?_ rfl rfl, ?_, ?_⟩
      · simp only [advance, State.del]
        rw [← empty, update_eq_self]
      · intro key value found
        simp only [advance, State.del, update_apply] at found
        split at found
        · cases found
        · exact .inl found
      · simp only [advance, State.del, empty, map_nil, append_nil]
  | nacking back id =>
    cases back with
    | some topic => cases early
    | none =>
      rw [advance_nacking h]
      exact ⟨.move i _ .finished here trivial (fun _ => ⟨rfl, rfl⟩) rfl rfl rfl, .of_eq rfl rfl⟩
  | finished =>
    exact ⟨.move i _ .finished here trivial (fun _ => ⟨rfl, rfl⟩) rfl rfl rfl, .of_eq rfl rfl⟩
  | moving | removing | handling | returning => cases early

variable {action : Action}

theorem step_effect (h : Quiet q s) (next : step env q s action = some t) :
    Effect q s action t ∧ Tame s t := by
  cases action with
  | publish topic message nanos now =>
    cases next
    exact ⟨.spawn (.storing topic (prepare topic message nanos now))
      (prepare_id topic message nanos now) (fun _ => rfl) rfl rfl rfl, .of_eq rfl rfl⟩
  | subscribe topic =>
    cases next
    exact ⟨.spawn (.polling topic) trivial (fun _ => rfl) rfl rfl rfl, .of_eq rfl rfl⟩
  | ack id =>
    cases next
    exact ⟨.spawn (.acking none id) trivial (fun _ => rfl) rfl rfl rfl, .of_eq rfl rfl⟩
  | nack id =>
    cases next
    exact ⟨.spawn (.nacking none id) trivial (fun _ => rfl) rfl rfl rfl, .of_eq rfl rfl⟩
  | run i handled =>
    simp only [step, map_eq_some_iff] at next
    obtain ⟨thread, here, after⟩ := next
    exact advance_effect h here handled after.symm

theorem early_set {threads : List Thread} {i : Nat}
    {new : Thread} (early : ∀ thread ∈ threads, Early published thread) (fits : Early published new) :
    ∀ thread ∈ threads.set i new, Early published thread := by
  intro thread mem
  rcases mem_or_eq_of_mem_set mem with old | rfl
  · exact early thread old
  · exact fits

theorem Quiet.step (h : Quiet q s) (next : step env q s action = some t) : Quiet q t := by
  obtain ⟨effect, tame⟩ := step_effect h next
  have stored : ∀ key value, t.strings key = some value → ∃ text, value = write (.string text) := by
    intro key value found
    rcases tame.strings key value found with old | new
    · exact h.stored key value old
    · exact new
  have acked : t.acked = [] := tame.acked.trans h.acked
  cases effect with
  | spawn thread early free lists published threads =>
    refine ⟨stored, ?_, ?_, acked⟩
    · rw [lists, published]
      exact h.queued
    · rw [threads, published]
      intro other mem
      rcases mem_append.mp mem with old | new
      · exact h.threads other old
      · rwa [mem_singleton.mp new]
  | move i old new here early free lists published threads =>
    refine ⟨stored, ?_, ?_, acked⟩
    · rw [lists, published]
      exact h.queued
    · rw [threads, published]
      exact early_set h.threads early
  | publish i topic id here some_ lists published threads =>
    refine ⟨stored, ?_, ?_, acked⟩
    · intro key entry mem
      rw [published]
      have old : entry ∈ s.lists key → ∃ topic' id', key = q.key .queue topic' ∧
          (s.published ++ [(topic, id)])[entry.serial]? = some (topic', id') ∧ id' ≠ [] ∧
          entry.text = write (.string id') := by
        intro mem
        obtain ⟨topic', id', sameKey, found, rest⟩ := h.queued key entry mem
        have lt := (List.getElem?_eq_some_iff.mp found).1
        exact ⟨topic', id', sameKey, by rw [getElem?_append_left lt, found], rest⟩
      rw [lists, update_apply] at mem
      split at mem
      · rename_i here
        rcases mem_cons.mp mem with rfl | mem
        · exact ⟨topic, id, here, by rw [getElem?_concat_length], some_, rfl⟩
        · exact old (by rwa [here])
      · exact old mem
    · rw [threads, published]
      exact early_set (fun thread mem => (h.threads thread mem).mono _) trivial
  | pop i topic id id' older entry here shape found lists published threads =>
    refine ⟨stored, ?_, ?_, acked⟩
    · intro key other mem
      rw [published]
      apply h.queued key other
      rw [lists, update_apply] at mem
      split at mem
      · rename_i same
        rw [same, shape]
        exact mem_append_left _ mem
      · exact mem
    · rw [threads, published]
      exact early_set h.threads ⟨id', found⟩
  | load i topic id serial loads here lists published threads =>
    refine ⟨stored, ?_, ?_, acked⟩
    · rw [lists, published]
      exact h.queued
    · rw [threads, published]
      exact early_set h.threads trivial

theorem countP_set {threads : List Thread} {i : Nat} {old : Thread}
    (here : threads[i]? = some old) (new : Thread) (p : Thread → Bool) :
    (threads.set i new).countP p + (p old).toNat = threads.countP p + (p new).toNat := by
  obtain ⟨lt, rfl⟩ := List.getElem?_eq_some_iff.mp here
  have present : (p threads[i]).toNat ≤ threads.countP p := by
    cases holds : p threads[i] with
    | false => exact Nat.zero_le _
    | true => exact countP_pos_iff.mpr ⟨threads[i], getElem_mem lt, holds⟩
  have asNat : ∀ b : Bool, (if b = true then 1 else 0) = b.toNat := by decide
  rw [List.countP_set lt, asNat, asNat]
  omega

theorem State.places_congr (lists : t.lists = s.lists) (acked : t.acked = s.acked) {serial : Nat}
    (carriers : t.carriers serial = s.carriers serial) (topic id : GoString) :
    t.places q serial topic id = s.places q serial topic id := by
  simp only [State.places, State.countIn, lists, acked, carriers]

theorem countIn_update {topic : GoString} {list : List Entry}
    (lists : t.lists = update s.lists (q.key .queue topic) list) (serial : Nat) :
    (∀ kind suffix, kind ≠ .queue →
        t.countIn (q.key kind suffix) serial = s.countIn (q.key kind suffix) serial) ∧
      (∀ topic', topic' ≠ topic →
        t.countIn (q.key .queue topic') serial = s.countIn (q.key .queue topic') serial) ∧
      t.countIn (q.key .queue topic) serial = list.countP (·.serial == serial) := by
  refine ⟨?_, ?_, ?_⟩
  · intro kind suffix other
    rw [State.countIn, lists, update_of_ne (Config.key_ne other _ _)]
    rfl
  · intro topic' other
    rw [State.countIn, lists, update_of_ne fun same => other (Config.key_inj.mp same).2]
    rfl
  · rw [State.countIn, lists, update_self]

theorem Quiet.fresh (h : Quiet q s) (topic id : GoString) :
    s.places q s.published.length topic id = 0 := by
  have unlisted : ∀ key, s.countIn key s.published.length = 0 := by
    intro key
    rw [State.countIn, countP_eq_zero]
    intro entry mem same
    obtain ⟨_, _, _, found, _⟩ := h.queued key entry mem
    rw [beq_iff_eq] at same
    rw [same, getElem?_eq_none le_rfl] at found
    cases found
  have uncarried : s.carriers s.published.length = 0 := by
    rw [State.carriers, countP_eq_zero]
    intro thread mem carried
    have early := h.threads thread mem
    cases thread with
    | loading topic id serial =>
      obtain ⟨_, found⟩ := early
      rw [beq_iff_eq.mp carried, getElem?_eq_none le_rfl] at found
      cases found
    | moving | returning => cases early
    | storing | pushing | polling | removing | handling | acking | nacking | finished => cases carried
  simp only [State.places, unlisted, uncarried, h.acked, count_nil]

theorem Conserved.step (conserved : Conserved q s) (h : Quiet q s)
    (next : step env q s action = some t) (unloaded : ¬ Loads s action) : Conserved q t := by
  obtain ⟨effect, tame⟩ := step_effect h next
  intro serial topic' id' found
  cases effect with
  | spawn thread early free lists published threads =>
    rw [published] at found
    rw [State.places_congr lists tame.acked]
    · exact conserved serial topic' id' found
    · rw [State.carriers, threads, countP_append, countP_singleton, free serial]
      rfl
  | move i old new here early free lists published threads =>
    rw [published] at found
    rw [State.places_congr lists tame.acked]
    · exact conserved serial topic' id' found
    · have counted := countP_set here new (Thread.carries serial)
      rw [(free serial).1, (free serial).2] at counted
      rw [State.carriers, threads]
      exact counted
  | publish i topic id here some_ lists published threads =>
    have counted := countP_set here .finished (Thread.carries serial)
    have carriers : t.carriers serial = s.carriers serial := by
      rw [State.carriers, threads]
      exact counted
    obtain ⟨others, elsewhere, here_⟩ := countIn_update lists serial
    rw [countP_cons] at here_
    rw [published, getElem?_append] at found
    split at found
    · -- an older message: its counts do not see the new entry
      have same := conserved serial topic' id' found
      have notNew : (s.published.length == serial) = false := by
        rw [beq_eq_false_iff_ne]
        omega
      rw [notNew] at here_
      simp only [State.places, carriers, tame.acked, others .processing id' (by decide),
        others .dead topic' (by decide)] at same ⊢
      by_cases topics : topic' = topic
      · subst topics
        rw [here_]
        exact same
      · rw [elsewhere topic' topics]
        exact same
    · -- the new message
      obtain ⟨lt, isNew⟩ := List.getElem?_eq_some_iff.mp found
      obtain rfl : serial = s.published.length := by
        rw [length_singleton] at lt
        omega
      simp only [getElem_singleton, Prod.mk.injEq] at isNew
      obtain ⟨rfl, rfl⟩ := isNew
      have none_ := h.fresh topic id
      simp only [State.places, carriers, tame.acked, others .processing id (by decide),
        others .dead topic (by decide), here_, beq_self_eq_true, if_true] at none_ ⊢
      rw [State.countIn] at none_
      omega
  | pop i topic id id'' older entry here shape popped lists published threads =>
    rw [published] at found
    have same := conserved serial topic' id' found
    have counted := countP_set here (.loading topic id entry.serial) (Thread.carries serial)
    have carriers : t.carriers serial = s.carriers serial + (entry.serial == serial).toNat := by
      rw [State.carriers, threads]
      exact counted
    obtain ⟨others, elsewhere, here_⟩ := countIn_update lists serial
    have before : s.countIn (q.key .queue topic) serial =
        t.countIn (q.key .queue topic) serial + (entry.serial == serial).toNat := by
      rw [State.countIn, shape, countP_append, here_, countP_singleton]
      cases entry.serial == serial <;> rfl
    simp only [State.places, carriers, tame.acked, others .processing id' (by decide),
      others .dead topic' (by decide)] at same ⊢
    by_cases topics : topic' = topic
    · subst topics
      omega
    · have other : (entry.serial == serial) = false := by
        rw [beq_eq_false_iff_ne]
        rintro rfl
        rw [popped] at found
        cases found
        exact topics rfl
      rw [elsewhere topic' topics, other]
      exact same
  | load i topic id serial loads here lists published threads => exact absurd loads unloaded

theorem load_drops (h : Quiet q s) (conserved : Conserved q s)
    (next : step env q s action = some t) (loads : Loads s action) : ¬ Conserved q t := by
  cases action with
  | publish | subscribe | ack | nack => cases loads
  | run i handled =>
    obtain ⟨topic, id, serial, here⟩ := loads
    obtain ⟨id', found⟩ := h.threads _ (mem_of_getElem? here)
    simp only [step, here, advance_loading h, map_some, some.injEq] at next
    have counted := countP_set here (.polling topic) (Thread.carries serial)
    have held : (Thread.loading topic id serial).carries serial = true := beq_self_eq_true serial
    have carriers : t.carriers serial + 1 = s.carriers serial := by
      rw [held] at counted
      rw [← next]
      exact counted
    intro still
    have one := conserved serial topic id' found
    have zero := still serial topic id' (by rw [← next]; exact found)
    have lists : t.lists = s.lists := by rw [← next]
    have acked : t.acked = s.acked := by rw [← next]
    simp only [State.places, State.countIn, lists, acked] at one zero
    omega

end Steps

section Runs

variable {env : Env} {q : Config}

variable {actions : List Action}

theorem run_append {s t : State} {action : Action} (h : run env q s (actions ++ [action]) = some t) :
    ∃ u, run env q s actions = some u ∧ step env q u action = some t := by
  rw [run, foldlM_append] at h
  obtain ⟨u, first, last⟩ := bind_eq_some_iff.mp h
  refine ⟨u, first, ?_⟩
  simpa only [foldlM_cons, foldlM_nil, Option.bind_eq_bind, Option.pure_def,
    bind_fun_some] using last

theorem run_isSome_of_append {s : State} {more : List Action}
    (h : (run env q s (actions ++ more)).isSome) : (run env q s actions).isSome := by
  rw [run, foldlM_append] at h
  obtain ⟨t, whole⟩ := isSome_iff_exists.mp h
  obtain ⟨u, first, _⟩ := bind_eq_some_iff.mp whole
  exact isSome_iff_exists.mpr ⟨u, first⟩

theorem run_quiet {s : State} (h : run env q init actions = some s) : Quiet q s := by
  induction actions using reverseRecOn generalizing s with
  | nil =>
    cases h
    exact init_quiet
  | append_singleton actions action ih =>
    obtain ⟨u, first, last⟩ := run_append h
    exact (ih first).step last

/-- No consumer of a run loads a message it has popped. -/
def NeverLoads (env : Env) (q : Config) (actions : List Action) : Prop :=
  ∀ before action after s, actions = before ++ action :: after →
    run env q init before = some s → ¬ Loads s action

/-- The messages are conserved at every point of a run. -/
def AlwaysConserved (env : Env) (q : Config) (actions : List Action) : Prop :=
  ∀ before after s, actions = before ++ after → run env q init before = some s → Conserved q s

theorem init_conserved : Conserved q init := by
  intro serial topic id found
  cases found

theorem NeverLoads.conserved (never : NeverLoads env q actions) : AlwaysConserved env q actions := by
  intro before
  induction before using reverseRecOn with
  | nil =>
    intro after s _ ran
    cases ran
    exact init_conserved
  | append_singleton before action ih =>
    intro after s split_ ran
    rw [append_assoc, singleton_append] at split_
    obtain ⟨u, first, last⟩ := run_append ran
    exact (ih (action :: after) u split_ first).step (run_quiet first) last
      (never before action after u split_ first)

/-- A run, under any interleaving of its threads, conserves its messages exactly as long as no
    consumer loads one. -/
theorem alwaysConserved_iff (actions : List Action) (ran : (run env q init actions).isSome) :
    AlwaysConserved env q actions ↔ NeverLoads env q actions := by
  refine ⟨?_, NeverLoads.conserved⟩
  intro always before action after s split_ first loads
  have longer : actions = (before ++ [action]) ++ after := by
    rw [split_, append_assoc, singleton_append]
  rw [longer] at ran
  obtain ⟨t, second⟩ := Option.isSome_iff_exists.mp (run_isSome_of_append ran)
  obtain ⟨u, again, next⟩ := run_append second
  rw [first] at again
  cases again
  exact load_drops (run_quiet first) (always before (action :: after) s split_ first) next loads
    (always (before ++ [action]) after t longer second)

section Sample

/-- A message with the identifier `m`. -/
def sampleMessage : Message := { Message.zero with id := ascii "m" }

/-- Publish to the topic `t` and let a consumer pop the message. -/
def popped : List Action :=
  [.publish (ascii "t") sampleMessage 0 (ascii "2025-01-01T00:00:00Z"), .run 0 true, .run 0 true,
    .subscribe (ascii "t"), .run 1 true]

def sampleEnv : Env := ⟨noFloats, fun _ => true⟩

def sampleConfig : Config := ⟨ascii "monitor:", ascii "mq"⟩

theorem alwaysConserved_iff_popped : AlwaysConserved sampleEnv sampleConfig popped := by
  refine (alwaysConserved_iff popped (by decide +kernel)).mpr fun before action after s split_ first loads => ?_
  have quiet : ∀ n < 5, (run sampleEnv sampleConfig init (popped.take n)).all fun s =>
      s.threads.all fun | .loading .. => false | _ => true := by decide +kernel
  have here : popped.take before.length = before := by rw [split_, take_left]
  have short := congrArg List.length split_
  rw [length_append, length_cons] at short
  have test := quiet before.length (by have : popped.length = 5 := rfl; omega)
  rw [here, first] at test
  cases action with
  | run i handled =>
    obtain ⟨topic, id, serial, loading⟩ := loads
    exact Bool.noConfusion (all_eq_true.mp test _ (mem_of_getElem? loading))
  | publish | subscribe | ack | nack => exact loads

/-- Once the consumer has tried to load it, the message is nowhere. -/
theorem load_loses_message :
    (run sampleEnv sampleConfig init (popped ++ [.run 1 true])).map
        (fun s => (s.published, s.places sampleConfig 0 (ascii "t") (ascii "m"))) =
      some ([(ascii "t", ascii "m")], 0) := by
  decide +kernel

end Sample

end Runs

end Monitor.Queue
