import CxlShm.HashIndex
import CxlShm.Lib.AppendChain
import CxlShm.WorldExact

/-! # IndexRun — the hash index while all clients are at work

Clients put pairs into the index and look keys up, among all their other calls. A look-up runs load by load, and
anything may happen between two of its loads. Next to the area stands the map that the calls of `put` make up.
-/

namespace CxlShm

open SlotCount Loop Transition AppendChain

/-! ## §1 — a look-up, load by load -/

/-- Where a call of `get` is: it tests `*entry`, follows it, compares the key, or reads the value. -/
inductive Getting
  | idle
  | test (key entry : Nat)
  | follow (key entry : Nat)
  | compare (key obj : Nat)
  | value (key obj : Nat)
  | done (key : Nat) (result : Option Nat)
  deriving DecidableEq, Repr

/-- The next load of a look-up. -/
def getStep (m : Shm) : Getting → Getting
  | .idle => .idle
  | .test key entry => if m.word entry = 0 then .done key none else .follow key entry
  | .follow key entry => .compare key (m.word entry)
  | .compare key obj =>
    if m.word (obj + sizeofCxlObj) = key then .value key obj else .test key (obj + sizeofCxlObj + 16)
  | .value key obj => .done key (some (m.word (obj + sizeofCxlObj + 8)))
  | .done key result => .done key result

theorem getStep_test {m : Shm} {key entry : Nat} (h : m.word entry ≠ 0) :
    getStep m (getStep m (.test key entry)) = .compare key (m.word entry) := by
  have htest : getStep m (.test key entry) = .follow key entry := if_neg h
  rw [htest]
  rfl

/-- What a search that has come to its end says. -/
def Search.result (m : Shm) : Search → Option Nat
  | .found data => some (m.word (data + 8))
  | .vacant _ => none

theorem findEntry_iterate {m : Shm} {key fuel entry : Nat} {s : Search} (h : findEntry key fuel entry m = some s) :
    ∃ n, (getStep m)^[n] (.test key entry) = .done key (s.result m) := by
  induction fuel generalizing entry with
  | zero => cases h
  | succ fuel ih =>
    unfold findEntry at h
    split at h
    case isTrue hz =>
      obtain rfl := Option.some.inj h
      exact ⟨1, if_pos hz⟩
    case isFalse hz =>
      simp only at h
      split at h
      case isTrue hk =>
        obtain rfl := Option.some.inj h
        refine ⟨4, ?_⟩
        show getStep m (getStep m (getStep m (getStep m (.test key entry)))) = _
        have hcompare : getStep m (.compare key (m.word entry)) = .value key (m.word entry) := if_pos hk
        rw [getStep_test hz, hcompare]
        rfl
      case isFalse hk =>
        obtain ⟨n, hn⟩ := ih h
        refine ⟨n + 3, ?_⟩
        have hcompare : getStep m (.compare key (m.word entry)) = .test key (m.word entry + sizeofCxlObj + 16) := if_neg hk
        have hthree : (getStep m)^[3] (.test key entry) = .test key (m.word entry + sizeofCxlObj + 16) := by
          show getStep m (getStep m (getStep m (.test key entry))) = _
          rw [getStep_test hz, hcompare]
        rw [Function.iterate_add_apply, hthree]
        exact hn

/-- **The loads of a look-up that nobody disturbs make up `get`.** -/
theorem get_iterate {m : Shm} {key fuel : Nat} {r : Option Nat} (h : get fuel key m = some r) :
    ∃ n, (getStep m)^[n] (.test key (getBucket key)) = .done key r := by
  obtain ⟨s, hs, hr⟩ := Option.map_eq_some_iff.mp h
  obtain ⟨n, hn⟩ := findEntry_iterate hs
  have hresult : s.result m = r := by
    rw [← hr]
    cases s <;> rfl
  exact ⟨n, hresult ▸ hn⟩

/-! ## §2 — the machine -/

/-- The users with `E` among the entries of the index. -/
def Users.withEntries (K : Users) (E : Finset Nat) : Users := { K with index := K.index ∪ E }

/-- The object that a call of `put` from `m` to `m'` has linked, if its key was new. -/
def putEntries (fuel tid key : Nat) (m m' : Shm) : Finset Nat :=
  match findEntry key fuel (putBucket tid key) m with
  | some (.vacant entry) => {m'.word entry}
  | _ => ∅

/-- The area, the entries of the index, the look-ups in progress, and the map that the index stands for. -/
structure IndexWorld where
  users : Users
  world : World
  gets : Nat → Getting
  map : Nat → Option Nat

/-- An area nobody has used yet; the slots of the applications lie outside the hash area. -/
structure IndexWorld.Fresh (K : Users) (s : IndexWorld) : Prop where
  users : s.users = K
  world : s.world.Fresh K
  apart : ∀ a ∈ K.extra, ¬ InHashArea a
  area : ∀ a, InHashArea a → s.world.mem.word a = 0
  gets : ∀ i, s.gets i = .idle
  map : ∀ key, s.map key = none

/-- A call of a client, among them `put` of a key of its own partition; or a look-up begins, or does one load. -/
inductive IndexStep (size : Nat) (s : IndexWorld) : IndexWorld → Prop
  | call (w : World) (h : WorldStep s.users size s.world w) : IndexStep size s { s with world := w }
  | put {m' : Shm} (u fuel key value : Nat) (hu : u ∈ s.users.clients) (hid : u ≤ 64) (hkey : key / 2 ^ 56 = u - 1)
      (hrun : put fuel u size key value s.world.mem = some m') :
      IndexStep size s ⟨s.users.withEntries (putEntries fuel u key s.world.mem m'), ⟨m', s.world.handles⟩, s.gets,
        Function.update s.map key (some value)⟩
  | get (i key : Nat) (hkey : key / 2 ^ 56 < 64) :
      IndexStep size s { s with gets := Function.update s.gets i (.test key (getBucket key)) }
  | load (i : Nat) : IndexStep size s { s with gets := Function.update s.gets i (getStep s.world.mem (s.gets i)) }

/-- The states of all runs of the clients with the index. -/
def IndexReach (K : Users) (size : Nat) : IndexWorld → Prop :=
  Reach (IndexWorld.Fresh K) (IndexStep size) fun _ => True

/-! ## §3 — the invariant -/

/-- The link of an entry is the third word of its data. -/
def entryLink (x : Nat) : Nat := x + sizeofCxlObj + 16

def entryKey (m : Shm) (x : Nat) : Nat := m.word (x + sizeofCxlObj)

def entryValue (m : Shm) (x : Nat) : Nat := m.word (x + sizeofCxlObj + 8)

/-- The first words of the chains. -/
def IsBucket (e : Nat) : Prop := ∃ key, key / 2 ^ 56 < 64 ∧ e = getBucket key

/-- The links of the index: the buckets and the links of its entries. -/
def IsLink (K : Users) (a : Nat) : Prop := IsBucket a ∨ ∃ x ∈ K.index, a = entryLink x

/-- `l` is the chain of the bucket `e`. -/
def ChainOf (m : Shm) (e : Nat) (l : List Nat) : Prop := ∃ f, Leads 0 entryLink m.word e l f ∧ m.word f = 0

/-- **The index is in order**: its chains share no entry and repeat no key, every entry is in the chain of its key,
with one reference, and together they spell the map. -/
structure IndexOk (K : Users) (m : Shm) (G : Nat → BlockLists) (chain : Nat → List Nat) (map : Nat → Option Nat) :
    Prop where
  apart : ∀ a ∈ K.extra, ¬ InHashArea a
  held : ∀ x ∈ K.index, HeldBy K G 4 x
  path : ∀ e, IsBucket e → ChainOf m e (chain e)
  entry : ∀ x, x ∈ K.index ↔ ∃ e, IsBucket e ∧ x ∈ chain e
  home : ∀ e, IsBucket e → ∀ x ∈ chain e, getBucket (entryKey m x) = e
  nodup : ∀ e, IsBucket e → ((chain e).map (entryKey m)).Nodup
  map : ∀ key, key / 2 ^ 56 < 64 → map key = lookup (entryKey m) (entryValue m) (chain (getBucket key)) key
  count : ∀ x ∈ K.index, m.refCnt x = 1
  embedded : ∀ x ∈ K.index, m.word (x + 16) = 0

/-- What a look-up has found out so far: the entries it has passed do not have the key. -/
def GetOk (m : Shm) : Getting → Prop
  | .idle => True
  | .test key entry => key / 2 ^ 56 < 64 ∧ ∃ l, Leads 0 entryLink m.word (getBucket key) l entry ∧
      ∀ x ∈ l, entryKey m x ≠ key
  | .follow key entry => key / 2 ^ 56 < 64 ∧ m.word entry ≠ 0 ∧ ∃ l, Leads 0 entryLink m.word (getBucket key) l entry ∧
      ∀ x ∈ l, entryKey m x ≠ key
  | .compare key obj => key / 2 ^ 56 < 64 ∧ ∃ l, Leads 0 entryLink m.word (getBucket key) (l ++ [obj]) (entryLink obj) ∧
      ∀ x ∈ l, entryKey m x ≠ key
  | .value key obj => key / 2 ^ 56 < 64 ∧ (∃ l, Leads 0 entryLink m.word (getBucket key) (l ++ [obj]) (entryLink obj)) ∧
      entryKey m obj = key
  | .done _ _ => True

/-- What every step keeps of the index: links that are set, and the keys of the entries. -/
structure LinksKept (K : Users) (m m' : Shm) : Prop where
  link : ∀ a, IsLink K a → m.word a ≠ 0 → m'.word a = m.word a
  key : ∀ x ∈ K.index, entryKey m' x = entryKey m x

end CxlShm
