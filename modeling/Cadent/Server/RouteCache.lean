import Cadent.Utils.LruTable

/-!
# Routes through the cache

`Get` and `GetN` of a `ConstHasher` look a key up in the ring and keep the servers in one cache.
`GetN` appends a colon and the number in two bytes to the key it is given. An answer is kept
whether or not the ring returned an error, and a hit returns none. A hit of the other kind of
value panics. The ring is the library's; any functions will do here. A change of the ring clears
the cache.
-/

namespace Route

open LruTable Runs

abbrev Bytes := List (BitVec 8)

/-- What `ServerCacheItem` and `MultiServerCacheItem` hold. -/
inductive Item where
  | server (s : String)
  | servers (l : List String)
  deriving DecidableEq

def Item.size : Item → BitVec 64
  | .server s => BitVec.ofNat 64 s.utf8ByteSize
  | .servers l => BitVec.ofNat 64 l.length

/-- The ring, over hash keys. A failed lookup has an error. -/
structure Consistent (R E : Type) where
  get : R → Bytes → String × Option E
  getN : R → Bytes → BitVec 16 → List String × Option E
  add : R → String → R
  remove : R → String → R

structure ConstHasher (R : Type) where
  hasher : R
  cache : LRUCache Bytes Item

/-- The key and `:` and the number, the low byte first. -/
def cacheKey (inKey : Bytes) (num : BitVec 16) : Bytes :=
  inKey ++ [58#8, num.setWidth 8, (num >>> 8).setWidth 8]

inductive Action where
  | get (inKey : Bytes)
  | getN (inKey : Bytes) (num : BitVec 16)
  | onServerUp (server : String)
  | onServerDown (server : String)

/-- What a call returns. -/
inductive Outcome (E : Type) where
  | one (server : String) (err : Option E)
  | many (servers : List String) (err : Option E)
  | done
  deriving DecidableEq

section Hasher

variable {R E : Type} (ring : Consistent R E) (hashKeyToServer serverToHashkey : String → String)

/-- What a lookup without the cache returns. -/
def uncached (hasher : R) : Action → Outcome E
  | .get inKey => .one (hashKeyToServer (ring.get hasher inKey).1) (ring.get hasher inKey).2
  | .getN inKey num =>
    .many ((ring.getN hasher inKey num).1.map hashKeyToServer) (ring.getN hasher inKey num).2
  | .onServerUp _ | .onServerDown _ => .done

namespace ConstHasher

variable (self : ConstHasher R)

def get (inKey : Bytes) : Option (ConstHasher R × Outcome E) := do
  let (cache, found) ← self.cache.step (.get inKey)
  match found.value with
  | none =>
    let (rSrv, err) := ring.get self.hasher inKey
    let realServer := hashKeyToServer rSrv
    let (cache, _) ← cache.step (.set inKey (.server realServer) (Item.server realServer).size)
    return ({ self with cache := cache }, .one realServer err)
  | some (.server s) => return ({ self with cache := cache }, .one s none)
  | some (.servers _) => none

def getN (inKey : Bytes) (num : BitVec 16) : Option (ConstHasher R × Outcome E) := do
  let key := cacheKey inKey num
  let (cache, found) ← self.cache.step (.get key)
  match found.value with
  | none =>
    let (srv, err) := ring.getN self.hasher inKey num
    let realServers := srv.map hashKeyToServer
    let (cache, _) ← cache.step (.set key (.servers realServers) (Item.servers realServers).size)
    return ({ self with cache := cache }, .many realServers err)
  | some (.servers l) => return ({ self with cache := cache }, .many l none)
  | some (.server _) => none

/-- The ring is changed and the cache cleared. -/
def changeRing (hasher : R) : Option (ConstHasher R × Outcome E) := do
  let (cache, _) ← self.cache.step .clear
  return (⟨hasher, cache⟩, .done)

/-- Without a result, the call panics. -/
def step : Action → Option (ConstHasher R × Outcome E)
  | .get inKey => self.get ring hashKeyToServer inKey
  | .getN inKey num => self.getN ring hashKeyToServer inKey num
  | .onServerUp server => self.changeRing (ring.add self.hasher (serverToHashkey server))
  | .onServerDown server => self.changeRing (ring.remove self.hasher (serverToHashkey server))

end ConstHasher

def start (hasher : R) (capacity : BitVec 64) : ConstHasher R := ⟨hasher, newLRUCache capacity⟩

/-- A key that no `GetN` makes: its third byte from the end is not a colon. -/
def Plain (inKey : Bytes) : Prop :=
  match inKey.reverse with
  | _ :: _ :: c :: _ => c ≠ 58#8
  | _ => True

instance (inKey : Bytes) : Decidable (Plain inKey) :=
  match h : inKey.reverse with
  | _ :: _ :: c :: _ => decidable_of_iff (c ≠ 58#8) (by simp [Plain, h])
  | [] | [_] | [_, _] => isTrue (by simp [Plain, h])

/-- The ring answers without an error, and the key of a `Get` is none of those of `GetN`. -/
def Answered (self : ConstHasher R) : Action → Prop
  | .get inKey => (ring.get self.hasher inKey).2 = none ∧ Plain inKey
  | .getN inKey num => (ring.getN self.hasher inKey num).2 = none
  | .onServerUp _ | .onServerDown _ => True

/-! ### Keys -/

theorem cacheKey_injective {k k' : Bytes} {n n' : BitVec 16}
    (same : cacheKey k n = cacheKey k' n') : k = k' ∧ n = n' := by
  obtain ⟨rfl, bytes⟩ := List.append_inj' same rfl
  simp only [List.cons.injEq, true_and, and_true] at bytes
  refine ⟨rfl, BitVec.eq_of_toNat_eq ?_⟩
  have low := congrArg BitVec.toNat bytes.1
  have high := congrArg BitVec.toNat bytes.2
  simp only [BitVec.toNat_setWidth, BitVec.toNat_ushiftRight, Nat.shiftRight_eq_div_pow] at low high
  have := n.isLt
  have := n'.isLt
  omega

theorem cacheKey_not_plain {k : Bytes} {n : BitVec 16} (plain : Plain (cacheKey k n)) : False := by
  simp [Plain, cacheKey] at plain

/-! ### The cache has what the ring answers -/

/-- What may be kept under a key: a server under a plain one, servers under one of `GetN`. -/
inductive Right (hasher : R) : Bytes → Item → Prop
  | server {k : Bytes} {s : String} (plain : Plain k)
      (same : uncached ring hashKeyToServer hasher (.get k) = .one s none) :
      Right hasher k (.server s)
  | servers {k : Bytes} {n : BitVec 16} {l : List String}
      (same : uncached ring hashKeyToServer hasher (.getN k n) = .many l none) :
      Right hasher (cacheKey k n) (.servers l)

/-- The cache represents entries that are all right. -/
def Truthful (self : ConstHasher R) : Prop :=
  ∃ l, Represents self.cache l ∧
    ∀ e ∈ l, Right ring hashKeyToServer self.hasher e.key e.value

variable {ring hashKeyToServer serverToHashkey} {self : ConstHasher R}

theorem Right.plain {hasher : R} {k : Bytes} {s : String}
    (right : Right ring hashKeyToServer hasher k (.server s)) :
    Plain k ∧ uncached ring hashKeyToServer hasher (.get k) = .one s none := by
  cases right with
  | server plain same => exact ⟨plain, same⟩

theorem Right.keyed {hasher : R} {k : Bytes} {l : List String}
    (right : Right ring hashKeyToServer hasher k (.servers l)) :
    ∃ k' n, k = cacheKey k' n ∧
      uncached ring hashKeyToServer hasher (.getN k' n) = .many l none := by
  cases right with
  | servers same => exact ⟨_, _, rfl, same⟩

/-- The cache has a right item for a key, or none and takes one that is right. -/
theorem Truthful.lookup (truthful : Truthful ring hashKeyToServer self) (k : Bytes) :
    ∃ cache found, self.cache.step (.get k) = some (cache, ⟨found, none⟩) ∧
      (∀ item, found = some item → Right ring hashKeyToServer self.hasher k item ∧
        Truthful ring hashKeyToServer { self with cache := cache }) ∧
      ∀ item, Right ring hashKeyToServer self.hasher k item →
        ∃ cache' out, cache.step (.set k item item.size) = some (cache', out) ∧
          Truthful ring hashKeyToServer { self with cache := cache' } := by
  obtain ⟨l, rep, right⟩ := truthful
  obtain ⟨cache, l', got, rep', among⟩ := step_get rep k
  refine ⟨cache, _, got, fun item found => ⟨?_, l', rep', fun e mem => right e (among mem)⟩,
    fun item own => ?_⟩
  · obtain ⟨e, here, rfl⟩ := Option.map_eq_some_iff.mp found
    obtain ⟨rfl, mem⟩ := mem_of_find? here
    exact right e mem
  · obtain ⟨cache', out, l'', set, rep'', new⟩ := step_set rep' k item item.size
    refine ⟨cache', out, set, l'', rep'', fun e mem => ?_⟩
    rcases new e mem with rfl | old
    · exact own
    · exact right e (among old)

theorem get_answers (truthful : Truthful ring hashKeyToServer self) {k : Bytes}
    (answered : Answered ring self (.get k)) :
    ∃ self', self.get ring hashKeyToServer k =
        some (self', uncached ring hashKeyToServer self.hasher (.get k)) ∧
      Truthful ring hashKeyToServer self' := by
  obtain ⟨cache, found, got, hit, miss⟩ := truthful.lookup k
  rw [ConstHasher.get, got]
  cases found with
  | none =>
    obtain ⟨cache', out, set, truthful'⟩ :=
      miss _ (.server answered.2 (by rw [uncached, answered.1]))
    exact ⟨_, by simp [set, uncached], truthful'⟩
  | some item =>
    obtain ⟨right, truthful'⟩ := hit item rfl
    cases item with
    | server s => exact ⟨_, by simp [right.plain.2], truthful'⟩
    | servers l =>
      obtain ⟨k', n, rfl, -⟩ := right.keyed
      exact (cacheKey_not_plain answered.2).elim

theorem getN_answers (truthful : Truthful ring hashKeyToServer self) {k : Bytes} {n : BitVec 16}
    (answered : Answered ring self (.getN k n)) :
    ∃ self', self.getN ring hashKeyToServer k n =
        some (self', uncached ring hashKeyToServer self.hasher (.getN k n)) ∧
      Truthful ring hashKeyToServer self' := by
  obtain ⟨cache, found, got, hit, miss⟩ := truthful.lookup (cacheKey k n)
  rw [ConstHasher.getN, got]
  cases found with
  | none =>
    obtain ⟨cache', out, set, truthful'⟩ :=
      miss _ (.servers (by rw [uncached, show _ = none from answered]))
    exact ⟨_, by simp [set, uncached], truthful'⟩
  | some item =>
    obtain ⟨right, truthful'⟩ := hit item rfl
    cases item with
    | server s => exact (cacheKey_not_plain right.plain.1).elim
    | servers servers =>
      obtain ⟨k', n', key, same⟩ := right.keyed
      obtain ⟨rfl, rfl⟩ := cacheKey_injective key
      exact ⟨_, by simp [same], truthful'⟩

theorem changeRing_clears (truthful : Truthful ring hashKeyToServer self) (hasher : R) :
    ∃ self', self.changeRing hasher = some (self', (.done : Outcome E)) ∧
      Truthful ring hashKeyToServer self' := by
  obtain ⟨l, rep, -⟩ := truthful
  obtain ⟨cache, cleared, rep'⟩ := step_clear rep
  exact ⟨⟨hasher, cache⟩, by simp [ConstHasher.changeRing, cleared], [], rep', nofun⟩

theorem step_answers (truthful : Truthful ring hashKeyToServer self) {a : Action}
    (answered : Answered ring self a) :
    ∃ self', self.step ring hashKeyToServer serverToHashkey a =
        some (self', uncached ring hashKeyToServer self.hasher a) ∧
      Truthful ring hashKeyToServer self' := by
  cases a with
  | get k => exact get_answers truthful answered
  | getN k n => exact getN_answers truthful answered
  | onServerUp s | onServerDown s => exact changeRing_clears truthful _

/-- As long as the ring answers without an error and no `Get` is asked for a key of `GetN`, every
call returns what a lookup without the cache would, and none panics. -/
theorem cache_not_seen {hasher : R} {capacity : BitVec 64}
    {h : List (Taken (ConstHasher R) Action (Outcome E))}
    (run : Run (fun self => self.step ring hashKeyToServer serverToHashkey) (Answered ring)
      (start hasher capacity) h self) :
    (∀ e ∈ h, e.out = uncached ring hashKeyToServer e.pre.hasher e.act) ∧
      ∀ a, Answered ring self a → ∃ self', self.step ring hashKeyToServer serverToHashkey a =
        some (self', uncached ring hashKeyToServer self.hasher a) := by
  have all : (∀ e ∈ h, e.out = uncached ring hashKeyToServer e.pre.hasher e.act) ∧
      Truthful ring hashKeyToServer self := by
    refine run_invariant (fun h self => (∀ e ∈ h, e.out =
      uncached ring hashKeyToServer e.pre.hasher e.act) ∧ Truthful ring hashKeyToServer self)
      ⟨nofun, [], represents_new capacity, nofun⟩ ?_ run
    rintro h self a self' out ⟨before, truthful⟩ answered taken
    obtain ⟨after, done, truthful'⟩ := step_answers truthful answered
    obtain ⟨rfl, rfl⟩ := Prod.mk.inj (Option.some.inj (done.symm.trans taken))
    refine ⟨fun e mem => ?_, truthful'⟩
    rcases List.mem_append.mp mem with old | new
    · exact before e old
    · rw [List.mem_singleton.mp new]
  refine ⟨all.1, fun a answered => ?_⟩
  obtain ⟨after, done, -⟩ := step_answers all.2 answered
  exact ⟨after, done⟩

end Hasher

/-! ### A ring that has servers or none -/

/-- The servers of a list, the first of them for every key. -/
def firstOf : Consistent (List String) Unit where
  get servers _ := (servers.headD "", if servers = [] then some () else none)
  getN servers _ n := (servers.take n.toNat, if servers = [] then some () else none)
  add servers s := s :: servers
  remove servers s := servers.erase s

instance (self : ConstHasher (List String)) : (a : Action) → Decidable (Answered firstOf self a)
  | .get inKey => inferInstanceAs (Decidable (_ = none ∧ Plain inKey))
  | .getN inKey num => inferInstanceAs (Decidable ((firstOf.getN self.hasher inKey num).2 = none))
  | .onServerUp _ | .onServerDown _ => inferInstanceAs (Decidable True)

abbrev firstStep (self : ConstHasher (List String)) := self.step firstOf id id

theorem cache_not_seen_changed :
    ∃ h self, Run firstStep (Answered firstOf) (start ["a"] 100#64) h self ∧
      h.map (·.out) = [.one "a" none, .many ["a"] none, .one "a" none, .done, .one "b" none] ∧
      ∀ e ∈ h, e.out = uncached firstOf id e.pre.hasher e.act := by
  have run := run_of_exec firstStep (Answered firstOf) (start ["a"] 100#64)
    [.get [1#8], .getN [1#8] 1#16, .get [1#8], .onServerUp "b", .get [1#8]] (by decide)
  exact ⟨_, _, run, by decide, (cache_not_seen run).1⟩

/-- On an empty ring the second `Get` returns no error. A `Get` for a key of `GetN` panics after
that, and so does the `GetN` after the `Get`. -/
theorem cache_seen :
    (∃ h self, Run firstStep anyStep (start [] 100#64) h self ∧
      h.map (·.out) = [.one "" (some ()), .one "" none] ∧
      h.map (fun e => uncached firstOf id e.pre.hasher e.act) =
        [.one "" (some ()), .one "" (some ())]) ∧
    (∃ h self, Run firstStep anyStep (start ["a"] 100#64) h self ∧
      h.map (·.out) = [.many ["a"] none] ∧ firstStep self (.get [1#8, 58#8, 1#8, 0#8]) = none) ∧
    ∃ h self, Run firstStep anyStep (start ["a"] 100#64) h self ∧
      h.map (·.out) = [.one "a" none] ∧ firstStep self (.getN [1#8] 1#16) = none := by
  have empty := run_of_exec firstStep anyStep (start [] 100#64) [.get [1#8], .get [1#8]] (by decide)
  have many := run_of_exec firstStep anyStep (start ["a"] 100#64) [.getN [1#8] 1#16] (by decide)
  have one := run_of_exec firstStep anyStep (start ["a"] 100#64)
    [.get [1#8, 58#8, 1#8, 0#8]] (by decide)
  exact ⟨⟨_, _, empty, by decide, by decide⟩, ⟨_, _, many, by decide, rfl⟩,
    _, _, one, by decide, rfl⟩

end Route
