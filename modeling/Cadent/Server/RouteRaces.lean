import Cadent.Server.HashRing
import Cadent.Server.RouteCache
import Mathlib.Logic.Function.Basic

/-!
# Routes while the ring changes

`GetN` looks into the cache, asks the ring when it finds nothing, and stores the answer: three
steps, between which other goroutines go on. A change of the ring is two steps, the change itself
and the clearing of the cache. The pool makes its changes under a mutex, so there is one at a time.
Of the ring it is known what its members are, and that it answers with members, which the ring of
the library does. The maps between servers and hash keys do not change.
-/

namespace Route

open LruTable Runs

/-- A ring with its members, which are hash keys. A lookup that does not return has no answer. -/
structure Members (R H : Type) where
  mem : R → H → Prop
  add : R → H → R
  remove : R → H → R
  getN : R → Bytes → BitVec 16 → Option (List H)
  mem_add : ∀ {r k k'}, mem (add r k) k' → mem r k' ∨ k' = k
  mem_remove : ∀ {r k k'}, mem (remove r k) k' → mem r k' ∧ k' ≠ k
  getN_mem : ∀ {r key n l k}, getN r key n = some l → k ∈ l → mem r k

/-- Where a call of `GetN` is. -/
inductive Call (S : Type) where
  | idle
  | missed (key : Bytes) (num : BitVec 16)
  | looked (key : Bytes) (num : BitVec 16) (servers : List S)
  deriving DecidableEq

/-- The answer of the ring that a call has yet to store. -/
def Call.toStore {S : Type} : Call S → Option (List S)
  | .looked _ _ servers => some servers
  | _ => none

/-- `changed` is the server of a change that has yet to clear the cache, and whether it is up. -/
structure Racing (ι R S : Type) where
  hasher : R
  cache : LRUCache Bytes (List S)
  calls : ι → Call S
  changed : Option (S × Bool)

namespace Racing

inductive Action (ι S : Type) where
  | getN (t : ι) (key : Bytes) (num : BitVec 16)
  | lookup (t : ι)
  | store (t : ι)
  | change (server : S) (up : Bool)
  | clear
  deriving DecidableEq

inductive Outcome (ι S : Type) where
  | quiet
  | returned (t : ι) (servers : List S)
  | finished (server : S) (up : Bool)

section System

variable {ι R S H : Type} [DecidableEq ι] [DecidableEq S] (ring : Members R H)
variable (serverToHashkey : S → H) (hashKeyToServer : H → S)

def start (hasher : R) (capacity : BitVec 64) : Racing ι R S :=
  ⟨hasher, newLRUCache capacity, fun _ => .idle, none⟩

def goto (s : Racing ι R S) (t : ι) (call : Call S) : Racing ι R S :=
  { s with calls := Function.update s.calls t call }

def step (s : Racing ι R S) : Action ι S → Option (Racing ι R S × Outcome ι S)
  | .getN t key num =>
    if s.calls t = .idle then do
      let (cache, found) ← s.cache.step (.get (cacheKey key num))
      match found.value with
      | some servers => return ({ s with cache := cache }, .returned t servers)
      | none => return ({ s with cache := cache }.goto t (.missed key num), .quiet)
    else none
  | .lookup t =>
    match s.calls t with
    | .missed key num => do
      let srv ← ring.getN s.hasher key num
      return (s.goto t (.looked key num (srv.map hashKeyToServer)), .quiet)
    | _ => none
  | .store t =>
    match s.calls t with
    | .looked key num servers => do
      let (cache, _) ←
        s.cache.step (.set (cacheKey key num) servers (BitVec.ofNat 64 servers.length))
      return ({ s with cache := cache }.goto t .idle, .returned t servers)
    | _ => none
  | .change server up =>
    if s.changed = none then
      let change := if up then ring.add else ring.remove
      some ({ s with
        hasher := change s.hasher (serverToHashkey server)
        changed := some (server, up) }, .quiet)
    else none
  | .clear =>
    match s.changed with
    | none => none
    | some (server, up) => do
      let (cache, _) ← s.cache.step .clear
      return ({ s with cache := cache, changed := none }, .finished server up)

abbrev History (ι R S : Type) := List (Taken (Racing ι R S) (Action ι S) (Outcome ι S))

/-- Whether `onServerDown` of a server has completed with no `onServerUp` since, after one more
step. -/
def downAfter (server : S) (down : Bool) : Action ι S → Outcome ι S → Bool
  | .change s true, _ => if s = server then false else down
  | .clear, .finished s false => if s = server then true else down
  | _, _ => down

def down (server : S) (h : History ι R S) : Bool :=
  h.foldl (fun down e => downAfter server down e.act e.out) false

/-- When the cache is cleared after a removal, no call has an answer of the ring to store. -/
def Settled (s : Racing ι R S) : Action ι S → Prop
  | .clear => ∀ change ∈ s.changed, change.2 = false → ∀ t, (s.calls t).toStore = none
  | _ => True

/-- No other server has the server's hash key, and no other hash key leads to it. -/
structure Alone (server : S) : Prop where
  key : ∀ {other}, serverToHashkey other = serverToHashkey server → other = server
  server : ∀ {key}, hashKeyToServer key = server → key = serverToHashkey server

/-! ### A server that is down is nowhere -/

/-- A server is not in the ring, not in the cache and in no answer that is to be stored. -/
structure Gone (server : S) (s : Racing ι R S) : Prop where
  ring : ¬ ring.mem s.hasher (serverToHashkey server)
  cache : ∀ e ∈ s.cache.entries, server ∉ e.value
  calls : ∀ t, ∀ servers ∈ (s.calls t).toStore, server ∉ servers

/-- The cache is one, and a removal that has yet to clear it has left the ring without the
server. -/
structure Sound (s : Racing ι R S) : Prop where
  cache : Represents s.cache s.cache.entries
  removed : ∀ server, s.changed = some (server, false) →
    ¬ ring.mem s.hasher (serverToHashkey server)

/-- What a step does: what becomes of the ring, the cache, the calls and the change. -/
inductive Moved (s : Racing ι R S) : Action ι S → Racing ι R S → Outcome ι S → Prop
  | hit (t : ι) (key : Bytes) (num : BitVec 16) (cache : LRUCache Bytes (List S))
      (rep : Represents cache cache.entries) (among : cache.entries ⊆ s.cache.entries)
      (e : Entry Bytes (List S)) (mem : e ∈ s.cache.entries) :
      Moved s (.getN t key num) { s with cache := cache } (.returned t e.value)
  | missed (t : ι) (key : Bytes) (num : BitVec 16) (cache : LRUCache Bytes (List S))
      (rep : Represents cache cache.entries) (among : cache.entries ⊆ s.cache.entries) :
      Moved s (.getN t key num) ({ s with cache := cache }.goto t (.missed key num)) .quiet
  | looked (t : ι) (key : Bytes) (num : BitVec 16) (srv : List H)
      (answer : ring.getN s.hasher key num = some srv) :
      Moved s (.lookup t) (s.goto t (.looked key num (srv.map hashKeyToServer))) .quiet
  | stored (t : ι) (key : Bytes) (num : BitVec 16) (servers : List S)
      (here : s.calls t = .looked key num servers) (cache : LRUCache Bytes (List S))
      (rep : Represents cache cache.entries)
      (among : ∀ e ∈ cache.entries, e.value = servers ∨ e ∈ s.cache.entries) :
      Moved s (.store t) ({ s with cache := cache }.goto t .idle) (.returned t servers)
  | added (other : S) (free : s.changed = none) :
      Moved s (.change other true) { s with
        hasher := ring.add s.hasher (serverToHashkey other)
        changed := some (other, true) } .quiet
  | removed (other : S) (free : s.changed = none) :
      Moved s (.change other false) { s with
        hasher := ring.remove s.hasher (serverToHashkey other)
        changed := some (other, false) } .quiet
  | cleared (other : S) (up : Bool) (pending : s.changed = some (other, up))
      (cache : LRUCache Bytes (List S)) (rep : Represents cache []) :
      Moved s .clear { s with cache := cache, changed := none } (.finished other up)

variable {ring serverToHashkey hashKeyToServer} {s s' : Racing ι R S} {a : Action ι S}
variable {out : Outcome ι S} {server : S}

omit [DecidableEq S] in
theorem mem_add_of_ne {r : R} {other : S} (alone : Alone serverToHashkey hashKeyToServer server)
    (ne : other ≠ server) (gone : ¬ ring.mem r (serverToHashkey server)) :
    ¬ ring.mem (ring.add r (serverToHashkey other)) (serverToHashkey server) := fun mem =>
  (ring.mem_add mem).elim gone fun same => ne (alone.key same.symm)

omit [DecidableEq S] in
theorem represents_entries {lru : LRUCache Bytes (List S)} {l : List (Entry Bytes (List S))}
    (rep : Represents lru l) : Represents lru lru.entries := rep.entries_eq.symm ▸ rep

theorem moved_of_step (sound : Sound ring serverToHashkey s)
    (taken : s.step ring serverToHashkey hashKeyToServer a = some (s', out)) :
    Moved ring serverToHashkey hashKeyToServer s a s' out := by
  cases a with
  | getN t key num =>
    rw [step] at taken
    split_ifs at taken
    obtain ⟨cache, l', got, rep, among⟩ := step_get sound.cache (cacheKey key num)
    rw [got] at taken
    have same := rep.entries_eq
    cases found : s.cache.entries.find? (·.key = cacheKey key num) with
    | none =>
      simp only [found, Option.map_none, Option.bind_eq_bind, Option.bind_some] at taken
      obtain ⟨rfl, rfl⟩ := Prod.mk.inj (Option.some.inj taken)
      exact .missed t key num cache (represents_entries rep) (same ▸ among)
    | some e =>
      simp only [found, Option.map_some, Option.bind_eq_bind, Option.bind_some] at taken
      obtain ⟨rfl, rfl⟩ := Prod.mk.inj (Option.some.inj taken)
      exact .hit t key num cache (represents_entries rep) (same ▸ among) e
        (List.mem_of_find?_eq_some found)
  | lookup t =>
    rw [step] at taken
    cases here : s.calls t with
    | missed key num =>
      simp only [here] at taken
      cases answer : ring.getN s.hasher key num with
      | none => simp [answer] at taken
      | some srv =>
        simp only [answer, Option.bind_eq_bind, Option.bind_some] at taken
        obtain ⟨rfl, rfl⟩ := Prod.mk.inj (Option.some.inj taken)
        exact .looked t key num srv answer
    | idle | looked key num servers => simp [here] at taken
  | store t =>
    rw [step] at taken
    cases here : s.calls t with
    | looked key num servers =>
      obtain ⟨cache, out', l', set, rep, among⟩ :=
        step_set sound.cache (cacheKey key num) servers (BitVec.ofNat 64 servers.length)
      simp only [here, set, Option.bind_eq_bind, Option.bind_some] at taken
      obtain ⟨rfl, rfl⟩ := Prod.mk.inj (Option.some.inj taken)
      have same := rep.entries_eq
      refine .stored t key num servers here cache (represents_entries rep) fun e mem => ?_
      exact (among e (same ▸ mem)).imp (fun new => by rw [new]) id
    | idle | missed key num => simp [here] at taken
  | change other up =>
    have free : s.changed = none := by
      by_contra busy
      simp [step, busy] at taken
    rw [step, if_pos free] at taken
    obtain ⟨rfl, rfl⟩ := Prod.mk.inj (Option.some.inj taken)
    cases up with
    | true => exact .added other free
    | false => exact .removed other free
  | clear =>
    rw [step] at taken
    cases pending : s.changed with
    | none => simp [pending] at taken
    | some change =>
      obtain ⟨other, up⟩ := change
      obtain ⟨cache, cleared, rep⟩ := step_clear sound.cache
      simp only [pending, cleared, Option.bind_eq_bind, Option.bind_some] at taken
      obtain ⟨rfl, rfl⟩ := Prod.mk.inj (Option.some.inj taken)
      exact .cleared other up pending cache rep

omit [DecidableEq S] in
theorem sound_of_moved (sound : Sound ring serverToHashkey s)
    (moved : Moved ring serverToHashkey hashKeyToServer s a s' out) :
    Sound ring serverToHashkey s' := by
  cases moved with
  | hit t key num cache rep | missed t key num cache rep
  | stored t key num servers here cache rep => exact ⟨rep, sound.removed⟩
  | looked => exact ⟨sound.cache, sound.removed⟩
  | added other free => exact ⟨sound.cache, fun server pending => by cases pending⟩
  | removed other free =>
    refine ⟨sound.cache, fun server pending mem => ?_⟩
    cases pending
    exact (ring.mem_remove mem).2 rfl
  | cleared other up pending cache rep => exact ⟨represents_entries rep, nofun⟩

omit [DecidableEq S] in
/-- A server that is gone stays so until it is added, and no call returns it. -/
theorem gone_of_moved (alone : Alone serverToHashkey hashKeyToServer server)
    (gone : Gone ring serverToHashkey server s)
    (moved : Moved ring serverToHashkey hashKeyToServer s a s' out)
    (still : a ≠ .change server true) :
    Gone ring serverToHashkey server s' ∧ ∀ t l, out = .returned t l → server ∉ l := by
  -- a call that goes to another point has no answer with the server in it
  have goes : ∀ (t : ι) (call : Call S), (∀ servers ∈ call.toStore, server ∉ servers) →
      ∀ u, ∀ servers ∈ (Function.update s.calls t call u).toStore, server ∉ servers := by
    intro t call none u
    by_cases same : u = t
    · rw [same, Function.update_self]
      exact none
    · rw [Function.update_of_ne same]
      exact gone.calls u
  cases moved with
  | hit t key num cache rep among e mem =>
    refine ⟨⟨gone.ring, fun e mem => gone.cache e (among mem), gone.calls⟩, ?_⟩
    rintro _ _ ⟨⟩
    exact gone.cache e mem
  | missed t key num cache rep among =>
    exact ⟨⟨gone.ring, fun e mem => gone.cache e (among mem), goes t _ nofun⟩, nofun⟩
  | looked t key num srv answer =>
    refine ⟨⟨gone.ring, gone.cache, goes t _ ?_⟩, nofun⟩
    rintro _ ⟨⟩ mem
    obtain ⟨k, member, same⟩ := List.mem_map.mp mem
    rw [alone.server same] at member
    exact gone.ring (ring.getN_mem answer member)
  | stored t key num servers here cache rep among =>
    have absent := gone.calls t servers (by rw [here]; rfl)
    refine ⟨⟨gone.ring, fun e mem => ?_, goes t _ nofun⟩, ?_⟩
    · rcases among e mem with same | old
      · exact same ▸ absent
      · exact gone.cache e old
    · rintro _ _ ⟨⟩
      exact absent
  | added other free =>
    have ne : other ≠ server := by
      rintro rfl
      exact still rfl
    exact ⟨⟨mem_add_of_ne alone ne gone.ring, gone.cache, gone.calls⟩, nofun⟩
  | removed other free =>
    exact ⟨⟨fun mem => gone.ring (ring.mem_remove mem).1, gone.cache, gone.calls⟩, nofun⟩
  | cleared other up pending cache rep =>
    refine ⟨⟨gone.ring, fun e mem => ?_, gone.calls⟩, nofun⟩
    rw [rep.entries_eq] at mem
    cases mem

omit [DecidableEq S] in
/-- The clearing of a removal leaves the server nowhere, when nothing is to be stored. -/
theorem gone_of_cleared (sound : Sound ring serverToHashkey s) (settled : Settled s .clear)
    (moved : Moved ring serverToHashkey hashKeyToServer s .clear s' (.finished server false)) :
    Gone ring serverToHashkey server s' := by
  cases moved with
  | cleared _ _ pending cache rep =>
    refine ⟨sound.removed server pending, fun e mem => ?_, fun t l here => ?_⟩
    · rw [rep.entries_eq] at mem
      cases mem
    · exact absurd here (settled (server, false) pending rfl t ▸ nofun)

omit [DecidableEq ι] [DecidableEq S] in
theorem sound_start (hasher : R) (capacity : BitVec 64) :
    Sound ring serverToHashkey (start hasher capacity : Racing ι R S) :=
  ⟨represents_entries (represents_new capacity), nofun⟩

omit [DecidableEq ι] in
/-- A server is down by the step that removes it, or was so before and is not added. -/
theorem downAfter_true {was : Bool} (isDown : downAfter server was a out = true) :
    (a = .clear ∧ out = .finished server false) ∨ (was = true ∧ a ≠ .change server true) := by
  cases a with
  | getN | lookup | store => exact .inr ⟨isDown, nofun⟩
  | change other up =>
    cases up with
    | false => exact .inr ⟨isDown, nofun⟩
    | true =>
      by_cases same : other = server
      · simp [downAfter, same] at isDown
      · rw [downAfter, if_neg same] at isDown
        refine .inr ⟨isDown, ?_⟩
        rintro ⟨⟩
        exact same rfl
  | clear =>
    by_cases finished : out = .finished server false
    · exact .inl ⟨rfl, finished⟩
    · refine .inr ⟨?_, nofun⟩
      cases out with
      | quiet | returned => exact isDown
      | finished other up =>
        cases up with
        | true => exact isDown
        | false =>
          have ne : other ≠ server := by
            rintro rfl
            exact finished rfl
          rwa [downAfter, if_neg ne] at isDown

theorem gone_of_down {hasher : R} {capacity : BitVec 64} {h : History ι R S}
    (run : Run (step ring serverToHashkey hashKeyToServer) Settled (start hasher capacity) h s) :
    Sound ring serverToHashkey s ∧
      ∀ server, Alone serverToHashkey hashKeyToServer server → down server h = true →
        Gone ring serverToHashkey server s := by
  refine run_invariant (fun h s => Sound ring serverToHashkey s ∧
    ∀ server, Alone serverToHashkey hashKeyToServer server → down server h = true →
      Gone ring serverToHashkey server s)
    ⟨sound_start hasher capacity, nofun⟩ ?_ run
  rintro h s a s' out ⟨sound, before⟩ settled taken
  have moved := moved_of_step sound taken
  refine ⟨sound_of_moved sound moved, fun server alone isDown => ?_⟩
  rw [down, List.foldl_append] at isDown
  rcases downAfter_true isDown with ⟨rfl, rfl⟩ | ⟨was, still⟩
  · exact gone_of_cleared sound settled moved
  · exact (gone_of_moved alone (before server alone was) moved still).1

/-- A server that is gone is returned by no call until it is added. -/
theorem not_returned_of_gone {s₁ : Racing ι R S} {h : History ι R S}
    (alone : Alone serverToHashkey hashKeyToServer server)
    (sound : Sound ring serverToHashkey s₁) (gone : Gone ring serverToHashkey server s₁)
    (run : Run (step ring serverToHashkey hashKeyToServer) Settled s₁ h s)
    (still : ∀ e ∈ h, e.act ≠ .change server true) :
    ∀ e ∈ h, ∀ t l, e.out = .returned t l → server ∉ l := by
  have kept := run_invariant (fun h s => Sound ring serverToHashkey s ∧
    ((∀ e ∈ h, e.act ≠ .change server true) → Gone ring serverToHashkey server s ∧
      ∀ e ∈ h, ∀ t l, e.out = .returned t l → server ∉ l))
    ⟨sound, fun _ => ⟨gone, nofun⟩⟩ ?_ run
  · exact (kept.2 still).2
  rintro h s a s' out ⟨sound, before⟩ - taken
  have moved := moved_of_step sound taken
  refine ⟨sound_of_moved sound moved, fun still => ?_⟩
  obtain ⟨earlier, last⟩ := List.forall_mem_append.mp still
  obtain ⟨gone, none⟩ := before earlier
  obtain ⟨gone', now⟩ := gone_of_moved alone gone moved (last _ (List.mem_singleton_self _))
  refine ⟨gone', List.forall_mem_append.mpr ⟨none, fun e mem => ?_⟩⟩
  rw [List.mem_singleton.mp mem]
  exact now

/-- If no call of `GetN` is between the ring and the cache when the cache is cleared after a
removal, then once `onServerDown` of a server with a hash key of its own has completed no call
returns the server before an `onServerUp` of it. -/
theorem down_not_returned {hasher : R} {capacity : BitVec 64} {h₁ h₂ : History ι R S}
    {s₁ s₂ : Racing ι R S} (alone : Alone serverToHashkey hashKeyToServer server)
    (run₁ : Run (step ring serverToHashkey hashKeyToServer) Settled (start hasher capacity) h₁ s₁)
    (isDown : down server h₁ = true)
    (run₂ : Run (step ring serverToHashkey hashKeyToServer) Settled s₁ h₂ s₂)
    (still : ∀ e ∈ h₂, e.act ≠ .change server true) :
    ∀ e ∈ h₂, ∀ t l, e.out = .returned t l → server ∉ l :=
  have ⟨sound, gone⟩ := gone_of_down run₁
  not_returned_of_gone alone sound (gone server alone isDown) run₂ still

end System

/-! ### The ring of the library -/

/-- The hash ring, with some rounds for the loop of its `GetN`. An empty circle has no servers, and
a call whose loop has not ended does not return. -/
def library (hashing : HashRing.Hashing) (rounds : Nat) :
    Members (HashRing.Consistent hashing) String where
  mem c k := k ∈ c.members
  add := .add
  remove := .remove
  getN c key n :=
    match c.getN rounds key n.toNat with
    | .found servers => some servers
    | .emptyCircle => some []
    | .panics | .running => none
  mem_add mem := (Finset.mem_insert.mp mem).symm
  mem_remove mem := (Finset.mem_erase.mp mem).symm
  getN_mem answer mem := by
    split at answer
    · obtain rfl := Option.some.inj answer
      exact HashRing.Consistent.getN_members ‹_› _ mem
    · obtain rfl := Option.some.inj answer
      cases mem
    · cases answer
    · cases answer

/-- Two replicas, whose points are next to each other. -/
def sample : HashRing.Hashing where
  hashKey name := name.foldl (fun h b => h * 31#32 + b.setWidth 32) 0#32
  eltKey elt i := elt.toList.map (fun c => BitVec.ofNat 8 c.toNat) ++ [BitVec.ofNat 8 i]
  numberOfReplicas := 2

abbrev Ring := HashRing.Consistent sample

instance (s : Racing (Fin 2) Ring String) : (a : Action (Fin 2) String) → Decidable (Settled s a)
  | .clear => inferInstanceAs (Decidable (∀ change ∈ s.changed, change.2 = false →
      ∀ t, (s.calls t).toStore = none))
  | .getN .. | .lookup _ | .store _ | .change .. => inferInstanceAs (Decidable True)

/-- The two servers, each with a hash key of its own. -/
abbrev ownStep (s : Racing (Fin 2) Ring String) := s.step (library sample 9) id id

abbrev both : Racing (Fin 2) Ring String :=
  start (((HashRing.Consistent.new sample).add "a").add "b") 100#64

/-- The answers that calls have returned. -/
def answers (h : History (Fin 2) Ring String) : List (Fin 2 × List String) :=
  h.filterMap fun e => match e.out with
    | .returned t servers => some (t, servers)
    | _ => none

def settled : List (Action (Fin 2) String) :=
  [.getN 0 [1#8] 2#16, .lookup 0, .store 0, .change "a" false, .clear]

def overtaken : List (Action (Fin 2) String) :=
  [.getN 0 [1#8] 2#16, .lookup 0, .change "a" false, .clear]

/-- A call is over before a server goes down, and one that starts after finds the other server. -/
theorem down_not_returned_settled :
    ∃ h₁ s₁ h₂ s₂, Run ownStep Settled both h₁ s₁ ∧ down "a" h₁ = true ∧
      Run ownStep Settled s₁ h₂ s₂ ∧ answers h₁ = [(0, ["a", "b"])] ∧
      answers h₂ = [(1, ["b"])] ∧
      ∀ e ∈ h₂, ∀ t l, e.out = .returned t l → "a" ∉ l := by
  have run₁ := run_of_exec ownStep Settled both settled (by decide +kernel)
  have run₂ := run_of_exec ownStep Settled
    ((exec ownStep Settled both settled).get (by decide +kernel)).2
    [.getN 1 [1#8] 2#16, .lookup 1, .store 1] (by decide +kernel)
  exact ⟨_, _, _, _, run₁, by decide +kernel, run₂, by decide +kernel, by decide +kernel,
    down_not_returned ⟨id, id⟩ run₁ (by decide +kernel) run₂ (by decide +kernel)⟩

/-- Both servers have the hash key of the first. -/
abbrev sharedStep (s : Racing (Fin 2) Ring String) := s.step (library sample 9) (fun _ => "a") id

abbrev one : Racing (Fin 2) Ring String := start ((HashRing.Consistent.new sample).add "a") 100#64

/-- A call asks the ring, a server goes down and the cache is cleared, the call stores the answer:
a call that starts after it returns the server. Where two servers have one hash key, the server
that is down is back with the other. -/
theorem down_returned :
    (∃ h₁ s₁ h₂ s₂, Run ownStep anyStep both h₁ s₁ ∧ down "a" h₁ = true ∧ s₁.calls 1 = .idle ∧
      Run ownStep anyStep s₁ h₂ s₂ ∧ h₂.map (·.act) = [.store 0, .getN 1 [1#8] 2#16] ∧
      (1, ["a", "b"]) ∈ answers h₂) ∧
    ∃ h₁ s₁ h₂ s₂, Run sharedStep anyStep one h₁ s₁ ∧ down "a" h₁ = true ∧
      s₁.calls 1 = .idle ∧ Run sharedStep anyStep s₁ h₂ s₂ ∧
      h₂.map (·.act) = [.change "b" true, .clear, .getN 1 [1#8] 2#16, .lookup 1, .store 1] ∧
      (1, ["a"]) ∈ answers h₂ := by
  have run₁ := run_of_exec ownStep anyStep both overtaken (by decide +kernel)
  have run₂ := run_of_exec ownStep anyStep
    ((exec ownStep anyStep both overtaken).get (by decide +kernel)).2
    [.store 0, .getN 1 [1#8] 2#16] (by decide +kernel)
  have shared₁ := run_of_exec sharedStep anyStep one [.change "a" false, .clear] (by decide +kernel)
  have shared₂ := run_of_exec sharedStep anyStep
    ((exec sharedStep anyStep one [.change "a" false, .clear]).get (by decide +kernel)).2
    [.change "b" true, .clear, .getN 1 [1#8] 2#16, .lookup 1, .store 1] (by decide +kernel)
  exact ⟨⟨_, _, _, _, run₁, by decide +kernel, by decide +kernel, run₂, by decide +kernel,
    by decide +kernel⟩, _, _, _, _, shared₁, by decide +kernel, by decide +kernel, shared₂,
    by decide +kernel, by decide +kernel⟩

end Racing

end Route
