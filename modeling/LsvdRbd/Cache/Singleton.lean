import LsvdRbd.Cache.Rewrites
import LsvdRbd.Session.Reads
import LsvdRbd.Translate.Layers

/-!
# One cache for all images of a process

`get_read_cache_instance` makes a cache for the first image and gives the same one to
every image that is opened while it lives. The cache keeps the backend of the image that
it was made for, its keys do not name a pool, and nothing takes a key out of it when the
object is written again.
-/

namespace LsvdRbd.Cache

open Ledger Machine Records ExtentMap RunList Session

set_option autoImplicit false

/-! ## Images and the cache they share -/

structure Image (P : Type*) where
  pool : P
  name : Bytes
  clones : List Format.CloneBase
  opened : Bool

def text (name : Bytes) : String := String.ofList (name.map fun byte => Char.ofNat byte.toNat)

variable {P β : Type*}

/-- `sharded_cache`: the pool of its backend and its shards. `asked` keeps for every read
the shard, the number there, and the pool of the image that asked. -/
structure Instance (P β : Type*) where
  pool : P
  shards : Fin 16 → Shard β
  asked : List (Fin 16 × ℕ × P)

namespace Instance

def next (k : Fin 16) (event : Event β) (inst : Instance P β) : Option (Instance P β) :=
  ((inst.shards k).next event).map fun shard =>
    { inst with shards := Function.update inst.shards k shard }

def read (k : Fin 16) (pool : P) (key : Key) (adjust len : ℕ) (inst : Instance P β) :
    Option (Instance P β) :=
  (inst.next k (.read key adjust len)).map fun after =>
    { after with asked := after.asked ++ [(k, (inst.shards k).reqs.length, pool)] }

end Instance

structure Process (P β : Type*) where
  images : List (Image P)
  /-- What `singleton.lock()` finds. -/
  cache : Option (Instance P β)
  /-- The objects of the pools, from the moment on that an image has made them; one that is
  not there has no bytes. -/
  object : P → String → ℕ → List β

/-- What can happen in a process. `size` is what the configuration of an image allows a
shard; `cache` is a step of a shard that no image asks for. Anybody may write or delete an
object of a pool. -/
inductive ProcessEvent (P β : Type*)
  | openImage (pool : P) (name : Bytes) (clones : List Format.CloneBase) (size : ℕ)
  | closeImage (i : ℕ)
  | fetch (i seq block inBlock count : ℕ)
  | insert (i seq offset : ℕ) (data : List β)
  | cache (shard : Fin 16) (event : Event β)
  | write (pool : P) (name : String) (seq : ℕ) (data : List β)

def Event.internal : Event β → Bool
  | .read _ _ _ | .insert _ _ => false
  | _ => true

namespace Process

def start (object : P → String → ℕ → List β) : Process P β := ⟨[], none, object⟩

def image (i : ℕ) (s : Process P β) : Option (Image P) :=
  (s.images[i]?).filter Image.opened

variable (hash : Key → ℕ)

def getShard (key : Key) : Fin 16 := Fin.ofNat 16 (hash key)

/-- The key under which an image finds a part of an object. -/
def keyFor (img : Image P) (seq offset : ℕ) : Option Key :=
  (Translate.translatePrefix img.name img.clones seq).map fun name => ⟨text name, seq, offset⟩

def withCache (f : Instance P β → Option (Instance P β)) (s : Process P β) :
    Option (Process P β) :=
  s.cache.bind fun inst => (f inst).map fun after => { s with cache := some after }

def written [DecidableEq P] (pool : P) (name : String) (seq : ℕ) (data : List β)
    (object : P → String → ℕ → List β) : P → String → ℕ → List β := fun p n k =>
  if p = pool ∧ n = name ∧ k = seq then data else object p n k

def step [DecidableEq P] (s : Process P β) : ProcessEvent P β → Option (Process P β)
  | .openImage pool name clones size => some { s with
      images := s.images ++ [⟨pool, name, clones, true⟩]
      cache := some (s.cache.getD ⟨pool, fun _ => .start size, []⟩) }
  | .closeImage i =>
      (s.image i).map fun img =>
        let images := s.images.set i { img with opened := false }
        { s with images := images, cache := if images.any Image.opened then s.cache else none }
  | .fetch i seq block inBlock count =>
      (s.image i).bind fun img => (keyFor img seq (512 * block)).bind fun key =>
        s.withCache (Instance.read (getShard hash key) img.pool key (512 * inBlock) (512 * count))
  | .insert i seq offset data =>
      (s.image i).bind fun img => (keyFor img seq offset).bind fun key =>
        s.withCache (Instance.next (getShard hash key) (.insert key data))
  | .cache k event => if event.internal then s.withCache (Instance.next k event) else none
  | .write pool name seq data => some { s with object := written pool name seq data s.object }

/-! ## Images of one pool -/

/-- The backend of the cache answers with the objects of its own pool, and an image inserts
those it writes to its own pool. What is read comes from `handle_reads`. -/
def Honest (s : Process P β) : ProcessEvent P β → Prop
  | .openImage _ _ _ _ | .closeImage _ | .write _ _ _ _ => True
  | .fetch _ _ block inBlock count => block % 128 = 0 ∧ inBlock + count ≤ 128
  | .insert i seq offset data => ∀ img ∈ s.image i, ∀ key ∈ keyFor img seq offset,
      Holds (s.object img.pool) key data
  | .cache k event => ∀ inst ∈ s.cache, Cache.Honest (s.object inst.pool) (inst.shards k) event

/-- What `handle_reads` asks the cache for meets the first condition. -/
theorem handle_reads_honest {s : Process P β} {bufmap : Session.Bufmap} {objmap : Objmap}
    {start count : ℕ} {pieces : List Piece}
    (plan : handleReads bufmap objmap start count = some pieces) {obj block inBlock n : ℤ}
    (member : .fetch obj block inBlock n ∈ pieces) (i : ℕ) :
    s.Honest (.fetch i obj.toNat block.toNat inBlock.toNat n.toNat) := by
  obtain ⟨-, aligned, positive, below, inside⟩ := plan_reads_fetch _ plan member
  simp only [blockSectors] at aligned below inside
  exact ⟨by omega, by omega⟩

/-- An image that is opened while there is a cache is in the pool of the cache's backend. -/
def SamePool (s : Process P β) : ProcessEvent P β → Prop
  | .openImage pool _ _ _ => ∀ inst ∈ s.cache, inst.pool = pool
  | _ => True

/-- While there is a cache for the pool, an object that it was asked for or given gets no
other bytes. It may be deleted. -/
def WritesNew (s : Process P β) : ProcessEvent P β → Prop
  | .write pool name seq data => data = [] ∨ data = s.object pool name seq ∨
      ∀ inst ∈ s.cache, inst.pool = pool →
        ∀ k, ∀ r ∈ (inst.shards k).reqs, ¬(r.key.image = name ∧ r.key.seq = seq)
  | _ => True

/-- The reads of an image that were answered have the bytes of its own pool. -/
def ReadsOwn (s : Process P β) : Prop :=
  ∀ inst ∈ s.cache, ∀ asked ∈ inst.asked, ∀ r ∈ (inst.shards asked.1).reqs[asked.2.1]?,
    ∀ read ∈ r.read, read.notified = 1 ∨ r.isDirect = true →
      bytes (s.object asked.2.2) read <+: read.dest

structure Ok (s : Process P β) : Prop where
  sound : ∀ inst ∈ s.cache, ∀ k, (inst.shards k).Ok (s.object inst.pool) ∧ (inst.shards k).Known
  asked : ∀ inst ∈ s.cache, ∀ asked ∈ inst.asked, asked.2.2 = inst.pool
  here : ∀ inst ∈ s.cache, ∀ img ∈ s.images, img.opened = true → img.pool = inst.pool
  alone : s.cache = none → ∀ img ∈ s.images, img.opened = false

variable {hash} {s t : Process P β}

theorem image_spec {i : ℕ} {img : Image P} (found : s.image i = some img) :
    img ∈ s.images ∧ img.opened = true := by
  obtain ⟨looked, opened⟩ := Option.filter_eq_some_iff.mp found
  exact ⟨List.mem_of_getElem? looked, opened⟩

theorem Ok.cached {inst after : Instance P β} {k : Fin 16} {event : Event β} (ok : s.Ok)
    (cached : s.cache = some inst)
    (honest : Cache.Honest (s.object inst.pool) (inst.shards k) event)
    (stepped : inst.next k event = some after) {asked : List (Fin 16 × ℕ × P)}
    (pools : ∀ a ∈ asked, a ∈ inst.asked ∨ a.2.2 = inst.pool) :
    ({ s with cache := some { after with asked := asked } } : Process P β).Ok := by
  obtain ⟨shard, moved, rfl⟩ := Option.map_eq_some_iff.mp stepped
  refine ⟨?_, ?_, ?_, by simp⟩
  · rintro _ ⟨⟩ d
    obtain ⟨sound, known⟩ := ok.sound inst cached d
    show (Function.update inst.shards k shard d).Ok (s.object inst.pool) ∧
      (Function.update inst.shards k shard d).Known
    by_cases same : d = k
    · subst same
      rw [Function.update_self]
      exact ⟨sound.next honest moved, known.next sound moved⟩
    · rw [Function.update_of_ne same]
      exact ⟨sound, known⟩
  · rintro _ ⟨⟩ a member
    exact (pools a member).elim (ok.asked inst cached a) fun same => same
  · rintro _ ⟨⟩ img member opened
    exact ok.here inst cached img member opened

theorem Ok.write [DecidableEq P] {pool : P} {name : String} {seq : ℕ} {data : List β} (ok : s.Ok)
    (fresh : s.WritesNew (.write pool name seq data)) :
    ({ s with object := written pool name seq data s.object } : Process P β).Ok := by
  refine ⟨?_, ok.asked, ok.here, ok.alone⟩
  intro inst cached k
  obtain ⟨sound, known⟩ := ok.sound inst cached k
  refine ⟨sound.rewritten known fun r member => ?_, known⟩
  show written pool name seq data s.object inst.pool r.key.image r.key.seq = _ ∨
    written pool name seq data s.object inst.pool r.key.image r.key.seq = []
  rw [written]
  split
  next here =>
    obtain ⟨isPool, isName, isSeq⟩ := here
    rcases fresh with gone | same | unseen
    · exact .inr gone
    · rw [isPool, isName, isSeq]
      exact .inl same
    · exact absurd ⟨isName, isSeq⟩ (unseen inst cached isPool k r member)
  next => exact .inl rfl

theorem Ok.step [DecidableEq P] {event : ProcessEvent P β} (ok : s.Ok) (honest : s.Honest event)
    (same : s.SamePool event) (fresh : s.WritesNew event) (stepped : s.step hash event = some t) :
    t.Ok := by
  cases event with
  | openImage pool name clones size =>
      cases stepped
      cases cached : s.cache with
      | none =>
          refine ⟨?_, ?_, ?_, by simp⟩
          · rintro _ ⟨⟩ k
            exact ⟨Shard.start_ok size, by simp [Shard.Known, Shard.start, Entry.unused]⟩
          · rintro _ ⟨⟩ asked member
            cases member
          · rintro _ ⟨⟩ img member opened
            rcases List.mem_append.mp member with before | last
            · rw [ok.alone cached img before] at opened
              cases opened
            · rw [List.mem_singleton.mp last]
              rfl
      | some inst =>
          refine ⟨?_, ?_, ?_, by simp⟩
          · rintro _ ⟨⟩ k
            exact ok.sound inst cached k
          · rintro _ ⟨⟩ asked member
            exact ok.asked inst cached asked member
          · rintro _ ⟨⟩ img member opened
            rcases List.mem_append.mp member with before | last
            · exact ok.here inst cached img before opened
            · rw [List.mem_singleton.mp last]
              exact (same inst cached).symm
  | closeImage i =>
      obtain ⟨img, found, rfl⟩ := Option.map_eq_some_iff.mp stepped
      have earlier : ∀ other ∈ s.images.set i { img with opened := false },
          other.opened = true → other ∈ s.images := by
        intro other member opened
        rcases List.mem_or_eq_of_mem_set member with before | rfl
        · exact before
        · cases opened
      dsimp only
      split
      case isTrue some_open =>
        refine ⟨ok.sound, ok.asked, ?_, ?_⟩
        · intro inst cached other member opened
          exact ok.here inst cached other (earlier other member opened) opened
        · intro none_left
          obtain ⟨other, member, opened⟩ := List.any_eq_true.mp some_open
          rw [ok.alone none_left other (earlier other member opened)] at opened
          cases opened
      case isFalse all_closed =>
        refine ⟨by simp, by simp, by simp, ?_⟩
        intro _ other member
        rw [Bool.eq_false_iff]
        exact fun opened => all_closed (List.any_eq_true.mpr ⟨other, member, opened⟩)
  | fetch i seq block inBlock count =>
      obtain ⟨img, found, rest⟩ := Option.bind_eq_some_iff.mp stepped
      obtain ⟨key, keyed, rest⟩ := Option.bind_eq_some_iff.mp rest
      obtain ⟨inst, cached, rest⟩ := Option.bind_eq_some_iff.mp rest
      obtain ⟨_, read, rfl⟩ := Option.map_eq_some_iff.mp rest
      obtain ⟨after, moved, rfl⟩ := Option.map_eq_some_iff.mp read
      obtain ⟨member, opened⟩ := image_spec found
      obtain ⟨name, -, rfl⟩ := Option.map_eq_some_iff.mp keyed
      have allowed : Cache.Honest (s.object inst.pool)
          (inst.shards (getShard hash ⟨text name, seq, 512 * block⟩))
          (.read ⟨text name, seq, 512 * block⟩ (512 * inBlock) (512 * count)) := by
        obtain ⟨aligned, inside⟩ := honest
        refine ⟨?_, ?_⟩
        · show 512 * block % chunkSize = 0
          simp only [chunkSize]
          omega
        · simp only [chunkSize]
          omega
      refine ok.cached cached allowed moved ?_
      intro a asked
      obtain ⟨shard, -, rfl⟩ := Option.map_eq_some_iff.mp moved
      rcases List.mem_append.mp asked with before | last
      · exact .inl before
      · rw [List.mem_singleton.mp last]
        exact .inr (ok.here inst cached img member opened)
  | insert i seq offset data =>
      obtain ⟨img, found, rest⟩ := Option.bind_eq_some_iff.mp stepped
      obtain ⟨key, keyed, rest⟩ := Option.bind_eq_some_iff.mp rest
      obtain ⟨inst, cached, rest⟩ := Option.bind_eq_some_iff.mp rest
      obtain ⟨after, moved, rfl⟩ := Option.map_eq_some_iff.mp rest
      obtain ⟨member, opened⟩ := image_spec found
      have own : Cache.Honest (s.object inst.pool) (inst.shards (getShard hash key))
          (.insert key data) := by
        rw [← ok.here inst cached img member opened]
        exact honest img found key keyed
      refine ok.cached cached own moved ?_
      obtain ⟨shard, -, rfl⟩ := Option.map_eq_some_iff.mp moved
      exact fun a asked => .inl asked
  | cache k event =>
      rw [Process.step] at stepped
      split at stepped
      · obtain ⟨inst, cached, rest⟩ := Option.bind_eq_some_iff.mp stepped
        obtain ⟨after, moved, rfl⟩ := Option.map_eq_some_iff.mp rest
        refine ok.cached cached (honest inst cached) moved ?_
        obtain ⟨shard, -, rfl⟩ := Option.map_eq_some_iff.mp moved
        exact fun a asked => .inl asked
      · cases stepped
  | write pool name seq data =>
      cases stepped
      exact ok.write fresh

theorem Ok.readsOwn (ok : s.Ok) : s.ReadsOwn := by
  intro inst cached asked member r found read of answered
  rw [ok.asked inst cached asked member]
  have sane := (ok.sound inst cached asked.1).1.sane_at found
  exact (sane.served of).2 answered

instance [DecidableEq P] (s : Process P β) : (event : ProcessEvent P β) → Decidable (s.SamePool event)
  | .openImage pool _ _ _ => inferInstanceAs (Decidable (∀ inst ∈ s.cache, inst.pool = pool))
  | .closeImage _ | .fetch _ _ _ _ _ | .insert _ _ _ _ | .cache _ _ | .write _ _ _ _ =>
      .isTrue trivial

instance [DecidableEq P] [DecidableEq β] (s : Process P β) :
    (event : ProcessEvent P β) → Decidable (s.WritesNew event)
  | .write _ _ _ _ => inferInstanceAs (Decidable (_ ∨ _ ∨ ∀ inst ∈ s.cache, _))
  | .openImage _ _ _ _ | .closeImage _ | .fetch _ _ _ _ _ | .insert _ _ _ _ | .cache _ _ =>
      .isTrue trivial

instance [DecidableEq β] (s : Process P β) :
    (event : ProcessEvent P β) → Decidable (s.Honest event)
  | .openImage _ _ _ _ | .closeImage _ | .write _ _ _ _ => .isTrue trivial
  | .fetch _ _ _ _ _ => inferInstanceAs (Decidable (_ ∧ _))
  | .insert i seq offset data => inferInstanceAs (Decidable (∀ img ∈ s.image i,
      ∀ key ∈ keyFor img seq offset,
        ((s.object img.pool key.image key.seq).drop key.offset).take chunkSize <+: data))
  | .cache k event => inferInstanceAs (Decidable (∀ inst ∈ s.cache,
      Cache.Honest (s.object inst.pool) (inst.shards k) event))

end Process

/-! ## Whole runs -/

/-- While every image that is opened is in the pool of the cache's backend, and no object
that the cache has been asked for or given is written again, each image reads the bytes of
its own pool, whatever the others do and whoever was opened first. -/
theorem images_read_own_pool [DecidableEq P] (hash : Key → ℕ)
    (object : P → String → ℕ → List β) {events : List (ProcessEvent P β)} {t : Process P β}
    (honest : Along (Process.step hash) Process.Honest (Process.start object) events)
    (onePool : Along (Process.step hash) Process.SamePool (Process.start object) events)
    (writesNew : Along (Process.step hash) Process.WritesNew (Process.start object) events)
    (ran : run (Process.step hash) (Process.start object) events = some t) : t.ReadsOwn := by
  have keeps : ∀ (s : Process P β) event next, s.Ok →
      s.Honest event ∧ s.SamePool event ∧ s.WritesNew event → s.step hash event = some next →
      next.Ok :=
    fun s event next ok allowed stepped => ok.step allowed.1 allowed.2.1 allowed.2.2 stepped
  have start : (Process.start object).Ok :=
    ⟨by simp [Process.start], by simp [Process.start], by simp [Process.start],
      by simp [Process.start]⟩
  exact (invariant_along keeps start (honest.and (onePool.and writesNew)) ran).readsOwn

def poolObjects (pool : Bool) (image : String) (seq : ℕ) : List ℕ :=
  if image = "disk" ∧ seq = 1 then (if pool then [1, 1, 1] else [0, 0, 0])
  else if image = "other" ∧ seq = 1 then [2, 2, 2] else []

def disk : Bytes := [100, 105, 115, 107]

def other : Bytes := [111, 116, 104, 101, 114]

def readThrough (i id : ℕ) (data : List ℕ) : List (ProcessEvent Bool ℕ) :=
  [.fetch i 1 0 0 1, .cache 0 (.run id), .cache 0 (.backendDone id data), .cache 0 (.answer id)]

/-- Two images of one pool. The first is a clone of the second, whose object 1 it reads; it
writes object 2, deletes it again and is closed before the other reads. -/
def closedFirst : List (ProcessEvent Bool ℕ) := List.flatten
  [[.openImage false disk [⟨other, 2 ^ 32 - 1, 0⟩] 1, .openImage false other [] 2],
    readThrough 0 0 [2, 2, 2],
    [.cache 0 (.storeWritten 0), .cache 0 (.storeDone 0), .write false "other" 2 [3, 3],
      .insert 0 2 0 [3, 3], .write false "other" 2 [], .cache 0 (.run 1), .cache 0 (.storeWritten 1),
      .cache 0 (.storeDone 1), .closeImage 0],
    readThrough 1 2 [2, 2, 2]]

theorem images_read_own_pool_closed :
    ∃ t : Process Bool ℕ,
      run (Process.step fun _ => 0) (Process.start poolObjects) closedFirst = some t ∧
        t.ReadsOwn := by
  obtain ⟨t, ran⟩ := Option.isSome_iff_exists.mp (by decide +kernel :
    (run (Process.step fun _ => 0) (Process.start poolObjects) closedFirst).isSome = true)
  exact ⟨t, ran, images_read_own_pool _ poolObjects (by decide +kernel) (by decide +kernel)
    (by decide +kernel) ran⟩

def otherPool : List (ProcessEvent Bool ℕ) :=
  [.openImage false disk [] 1, .openImage true disk [] 1] ++ readThrough 1 0 [0, 0, 0]

def madeAgain : List (ProcessEvent Bool ℕ) := List.flatten
  [[.openImage false disk [] 1], readThrough 0 0 [0, 0, 0],
    [.cache 0 (.storeWritten 0), .cache 0 (.storeDone 0), .write false "disk" 1 [],
      .write false "disk" 1 [5, 5, 5], .fetch 0 1 0 0 1, .cache 0 (.run 1), .cache 0 (.storeRead 1)]]

def lastRead (t : Process Bool ℕ) : Option (List ℕ × List ℕ) :=
  t.cache.bind fun inst => inst.asked.getLast?.bind fun asked =>
    (inst.shards asked.1).reqs[asked.2.1]?.bind fun r => r.read.bind fun read =>
      if read.notified = 1 then some (read.dest, bytes (t.object asked.2.2) read) else none

/-- An image of another pool gets the first pool's bytes, and an image of the same pool those
of an object that was there before. -/
theorem image_reads_other_pool :
    (Along (Process.step fun _ => 0) Process.Honest (Process.start poolObjects) otherPool ∧
      ∃ t, run (Process.step fun _ => 0) (Process.start poolObjects) otherPool = some t ∧
        lastRead t = some ([0, 0, 0], [1, 1, 1])) ∧
    Along (Process.step fun _ => 0) Process.Honest (Process.start poolObjects) madeAgain ∧
      Along (Process.step fun _ => 0) Process.SamePool (Process.start poolObjects) madeAgain ∧
      ∃ t, run (Process.step fun _ => 0) (Process.start poolObjects) madeAgain = some t ∧
        lastRead t = some ([0, 0, 0], [5, 5, 5]) := by
  obtain ⟨t, ran, held⟩ := (Option.any_eq_true _ _).mp (by decide +kernel :
    (run (Process.step fun _ => 0) (Process.start poolObjects) otherPool).any
      (fun t => decide (lastRead t = some ([0, 0, 0], [1, 1, 1]))) = true)
  obtain ⟨u, ranAgain, stale⟩ := (Option.any_eq_true _ _).mp (by decide +kernel :
    (run (Process.step fun _ => 0) (Process.start poolObjects) madeAgain).any
      (fun t => decide (lastRead t = some ([0, 0, 0], [5, 5, 5]))) = true)
  exact ⟨⟨by decide +kernel, t, ran, of_decide_eq_true held⟩, by decide +kernel, by decide +kernel,
    u, ranAgain, of_decide_eq_true stale⟩

end LsvdRbd.Cache
