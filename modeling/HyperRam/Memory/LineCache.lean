import Mathlib.Data.List.DropRight
import Mathlib.Data.List.Induction
import Mathlib.Logic.Function.Basic

/-!
# A cache of one line

A cache that holds one line of words and never writes it back. An access whose tag is the tag
of the line is served from it, any other access loads the line of its address first. `Geometry`
is how addresses are served, `Cache.access` one access, `Cache.run` a sequence of them.

* `Cache.tag_run` : the tag is that of the last access, so an access hits if and only if the
  access before it had its tag.
* `Cache.read_run_eq` : a read returns the last word stored to its place since the line was
  loaded, and the word it was loaded with if there is none. What was stored before is lost.
* `Cache.run_comap` : under other addresses the cache is that of the accesses they stand for.
* `Cache.read_run_flat` : on accesses to one line the cache is a flat memory.
* `Cache.traffic` : what the accesses cause, by the tags of neighbouring accesses alone.
-/

namespace Memory

/-- An access to a memory of words `β` at addresses `α`. -/
inductive Access (α β : Type*)
  | read (a : α)
  | write (a : α) (x : β)

/-- The address of an access. -/
def Access.addr {α β : Type*} : Access α β → α
  | read a => a
  | write a _ => a

/-- The word an access writes at the address `a`, if any. -/
def Access.writtenAt {α β : Type*} [DecidableEq α] (a : α) : Access α β → Option β
  | read _ => none
  | write b x => if b = a then some x else none

/-- An access under other addresses. -/
def Access.map {α α' β : Type*} (f : α → α') : Access α β → Access α' β
  | read a => read (f a)
  | write a x => write (f a) x

/-- A flat memory with the words `init` : the last word written at an address. -/
def flat {α β : Type*} [DecidableEq α] (init : α → β) (xs : List (Access α β)) (a : α) : β :=
  ((xs.filterMap (Access.writtenAt a)).getLast?).getD (init a)

/-- How a cache of one line serves addresses `α`, with tags `τ` and a line of words `β` at
places `κ`. -/
structure Geometry (α τ κ β : Type*) where
  tag : α → τ
  /-- The line a miss loads. -/
  fetch : α → κ → β
  /-- The place a read takes its word from. -/
  place : α → Option κ
  /-- What a read without a place returns. -/
  blank : β
  /-- The place and the word a write stores. -/
  stored : α → β → κ × β

/-- A tag and the line under it. -/
@[ext]
structure Cache (τ κ β : Type*) where
  tag : τ
  line : κ → β

variable {α τ κ β : Type*}

/-- A geometry under other addresses. -/
def Geometry.comap {α' : Type*} (g : Geometry α τ κ β) (f : α' → α) : Geometry α' τ κ β where
  tag a := g.tag (f a)
  fetch a := g.fetch (f a)
  place a := g.place (f a)
  blank := g.blank
  stored a x := g.stored (f a) x

/-- The word of a line a read returns. -/
def Geometry.word (g : Geometry α τ κ β) (a : α) (line : κ → β) : β :=
  match g.place a with
  | some k => line k
  | none => g.blank

namespace Geometry

variable [DecidableEq κ] (g : Geometry α τ κ β)

/-- An access that hits, on the line. -/
def update (line : κ → β) : Access α β → κ → β
  | .read _ => line
  | .write a x => Function.update line (g.stored a x).1 (g.stored a x).2

/-- The word an access stores at the place `k`, if any. -/
def storedAt (k : κ) : Access α β → Option β
  | .read _ => none
  | .write a x => if (g.stored a x).1 = k then some (g.stored a x).2 else none

/-- The last word a sequence of accesses stores at the place `k`, `x` if there is none. -/
def lastStored (xs : List (Access α β)) (k : κ) (x : β) : β :=
  ((xs.filterMap (g.storedAt k)).getLast?).getD x

theorem update_apply (line : κ → β) (x : Access α β) (k : κ) :
    g.update line x k = (g.storedAt k x).getD (line k) := by
  cases x with
  | read a => rfl
  | write a x =>
    by_cases hk : (g.stored a x).1 = k
    · simp [update, storedAt, hk]
    · simp [update, storedAt, hk, Function.update_of_ne (Ne.symm hk)]

/-- After a sequence of hits a place holds the last word stored there. -/
theorem foldl_update_apply :
    ∀ (xs : List (Access α β)) (line : κ → β) (k : κ),
      xs.foldl g.update line k = g.lastStored xs k (line k)
  | [], _, _ => rfl
  | x :: xs, line, k => by
    rw [List.foldl_cons, foldl_update_apply xs, update_apply, lastStored, lastStored]
    cases hx : g.storedAt k x with
    | none => simp [hx]
    | some y => simp [hx, List.getLast?_cons]

end Geometry

namespace Cache

section load

variable [DecidableEq τ] (g : Geometry α τ κ β) (c : Cache τ κ β)

/-- The cache with the line of `a`, which a miss loads. -/
def load (a : α) : Cache τ κ β :=
  if c.tag = g.tag a then c else ⟨g.tag a, g.fetch a⟩

/-- The word a read of `a` returns. -/
def read (a : α) : β :=
  g.word a (c.load g a).line

variable {g c}

theorem read_of_no_place {a : α} (h : g.place a = none) : c.read g a = g.blank := by
  simp only [read, Geometry.word, h]

theorem load_of_hit {a : α} (h : c.tag = g.tag a) : c.load g a = c :=
  if_pos h

theorem load_of_miss {a : α} (h : c.tag ≠ g.tag a) : c.load g a = ⟨g.tag a, g.fetch a⟩ :=
  if_neg h

@[simp] theorem load_tag (a : α) : (c.load g a).tag = g.tag a := by
  unfold load
  split_ifs with h
  · exact h
  · rfl

end load

variable [DecidableEq τ] [DecidableEq κ] (g : Geometry α τ κ β) (c : Cache τ κ β)

/-- One access. -/
def access (x : Access α β) : Cache τ κ β where
  tag := g.tag x.addr
  line := g.update (c.load g x.addr).line x

/-- A sequence of accesses. -/
def run (xs : List (Access α β)) : Cache τ κ β :=
  xs.foldl (access g) c

variable {g c}

/-- A read leaves the cache with its line loaded. -/
theorem access_read (a : α) : c.access g (.read a) = c.load g a :=
  Cache.ext (load_tag a).symm rfl

@[simp] theorem run_nil : c.run g [] = c :=
  rfl

theorem run_append (xs ys : List (Access α β)) : c.run g (xs ++ ys) = (c.run g xs).run g ys :=
  List.foldl_append

theorem run_concat (xs : List (Access α β)) (x : Access α β) :
    c.run g (xs ++ [x]) = (c.run g xs).access g x := by
  rw [run_append]
  rfl

/-- Under other addresses the cache is the cache of the accesses it stands for. -/
theorem run_comap {α' : Type*} (f : α' → α) (xs : List (Access α' β)) :
    c.run (g.comap f) xs = c.run g (xs.map (Access.map f)) := by
  have hstep : ∀ (c : Cache τ κ β) (x : Access α' β),
      c.access (g.comap f) x = c.access g (x.map f) := by
    intro c x
    cases x <;> rfl
  rw [run, run, List.foldl_map]
  congr 1
  ext c x : 2
  exact hstep c x

variable (g) in
/-- The tag of the last access, `tag` if there is none. -/
def lastTag (tag : τ) (xs : List (Access α β)) : τ :=
  (xs.getLast?.map fun x => g.tag x.addr).getD tag

/-- The tag is that of the last access. -/
theorem tag_run (xs : List (Access α β)) : (c.run g xs).tag = lastTag g c.tag xs := by
  induction xs using List.reverseRecOn with
  | nil => rfl
  | append_singleton xs x _ =>
    rw [run_concat, lastTag, List.getLast?_concat]
    rfl

/-- On accesses of its own tag the cache is a line of words. -/
theorem run_of_tag :
    ∀ {xs : List (Access α β)} {c : Cache τ κ β}, (∀ x ∈ xs, g.tag x.addr = c.tag) →
      c.run g xs = ⟨c.tag, xs.foldl g.update c.line⟩
  | [], _, _ => rfl
  | x :: xs, c, h => by
    have hx : g.tag x.addr = c.tag := h x (by simp)
    have hstep : c.access g x = ⟨c.tag, g.update c.line x⟩ := by
      rw [access, load_of_hit hx.symm, hx]
    have ih : (⟨c.tag, g.update c.line x⟩ : Cache τ κ β).run g xs = _ :=
      run_of_tag fun y hy => h y (List.mem_cons_of_mem x hy)
    rw [run, List.foldl_cons, hstep]
    exact ih

/-- Accesses of one tag load the line of the first of them. -/
theorem run_load {xs : List (Access α β)} {a b : α} (h : ∀ x ∈ xs, g.tag x.addr = g.tag a)
    (hb : (xs.map Access.addr ++ [a]).head? = some b) :
    (c.run g xs).load g a = (c.load g b).run g xs := by
  cases xs with
  | nil =>
    obtain rfl : a = b := by simpa using hb
    rfl
  | cons x xs =>
    obtain rfl : x.addr = b := by simpa using hb
    have htag : g.tag x.addr = g.tag a := h x (by simp)
    have hfirst : c.access g x = (c.load g x.addr).access g x := by
      simp only [access, load_of_hit (load_tag (c := c) x.addr)]
    have hrun : c.run g (x :: xs) = (c.load g x.addr).run g (x :: xs) := by
      simp only [run, List.foldl_cons, hfirst]
    have hlast : ((c.load g x.addr).run g (x :: xs)).tag = g.tag a := by
      rw [run_of_tag fun y hy => by rw [load_tag, h y hy, htag], load_tag, htag]
    rw [hrun, load_of_hit hlast]

/-- A read returns the last word stored to its place by the accesses since the line was loaded,
`b` the first of them, and the word it was loaded with if there is none. -/
theorem read_run {xs ys : List (Access α β)} {a b : α} (h : ∀ y ∈ ys, g.tag y.addr = g.tag a)
    (hb : (ys.map Access.addr ++ [a]).head? = some b) :
    (c.run g (xs ++ ys)).read g a =
      g.word a fun k => g.lastStored ys k (((c.run g xs).load g b).line k) := by
  have htag : ∀ y ∈ ys, g.tag y.addr = ((c.run g xs).load g b).tag := fun y hy => by
    rw [load_tag]
    cases ys with
    | nil => simp at hy
    | cons z zs =>
      obtain rfl : z.addr = b := by simpa using hb
      rw [h y hy, h z (by simp)]
  rw [read, run_append, run_load h hb, run_of_tag htag]
  congr 1
  funext k
  exact g.foldl_update_apply ys _ k

/-! ## What a read returns -/

variable (g) in
/-- The accesses at the end of a sequence that are of the tag of `a` : those the cache has served
from one line. -/
def resident (xs : List (Access α β)) (a : α) : List (Access α β) :=
  xs.rtakeWhile fun x => g.tag x.addr = g.tag a

variable (g) in
/-- The accesses before them. -/
def earlier (xs : List (Access α β)) (a : α) : List (Access α β) :=
  xs.rdropWhile fun x => g.tag x.addr = g.tag a

variable (g) in
/-- The first address of that line, `a` if there was no access to it. -/
def opener (xs : List (Access α β)) (a : α) : α :=
  ((resident g xs a).head?.map Access.addr).getD a

variable (g c) in
/-- The line as it was loaded : the one of the cache if no access left its tag, or the line of the
first address. -/
def loaded (xs : List (Access α β)) (a : α) : κ → β :=
  if c.tag = g.tag a ∧ (earlier g xs a).isEmpty then c.line else g.fetch (opener g xs a)

omit [DecidableEq κ] in
theorem tag_of_mem_resident {xs : List (Access α β)} {a : α} {x : Access α β}
    (h : x ∈ resident g xs a) : g.tag x.addr = g.tag a := by
  have htag := List.mem_rtakeWhile_imp h
  exact of_decide_eq_true htag

omit [DecidableEq κ] in
theorem opener_head? (xs : List (Access α β)) (a : α) :
    ((resident g xs a).map Access.addr ++ [a]).head? = some (opener g xs a) := by
  unfold opener
  cases resident g xs a <;> rfl

omit [DecidableEq κ] in
theorem tag_opener (xs : List (Access α β)) (a : α) : g.tag (opener g xs a) = g.tag a := by
  unfold opener
  cases h : resident g xs a with
  | nil => rfl
  | cons x ys => exact tag_of_mem_resident (h ▸ List.mem_cons_self)

/-- Accesses of another tag leave their own. -/
theorem tag_run_earlier {xs : List (Access α β)} {a : α} (h : earlier g xs a ≠ []) :
    (c.run g (earlier g xs a)).tag ≠ g.tag a := by
  rw [tag_run, lastTag, List.getLast?_eq_some_getLast h]
  have hlast := List.rdropWhile_last_not _ _ h
  rw [decide_eq_true_eq] at hlast
  exact hlast

/-- The line of a read is the one loaded. -/
theorem load_run_earlier (xs : List (Access α β)) (a : α) :
    ((c.run g (earlier g xs a)).load g (opener g xs a)).line = c.loaded g xs a := by
  unfold loaded
  by_cases hnil : earlier g xs a = []
  · rw [hnil, run_nil]
    by_cases htag : c.tag = g.tag a
    · rw [load_of_hit (htag.trans (tag_opener xs a).symm), if_pos ⟨htag, rfl⟩]
    · rw [load_of_miss fun h => htag (h.trans (tag_opener xs a)), if_neg fun h => htag h.1]
  · have hmiss : (c.run g (earlier g xs a)).tag ≠ g.tag (opener g xs a) := by
      rw [tag_opener]
      exact tag_run_earlier hnil
    rw [load_of_miss hmiss, if_neg fun h => hnil (List.isEmpty_iff.1 h.2)]

/-- After any sequence of accesses a read of `a` returns the word last stored to its place by the
accesses its line was resident for, or the word the line was loaded with. -/
theorem read_run_eq (xs : List (Access α β)) (a : α) : (c.run g xs).read g a =
    g.word a fun k => g.lastStored (resident g xs a) k (c.loaded g xs a k) := by
  have hsplit : earlier g xs a ++ resident g xs a = xs := List.rdropWhile_append_rtakeWhile
  rw [← load_run_earlier, ← read_run (fun y hy => tag_of_mem_resident hy) (opener_head? xs a),
    hsplit]

omit [DecidableEq κ] in
/-- Accesses of one line leave it as it was loaded. -/
theorem loaded_of_line {xs : List (Access α β)} {a : α} (htag : ∀ x ∈ xs, g.tag x.addr = g.tag a)
    (hfetch : ∀ x ∈ xs, g.fetch x.addr = g.fetch a) : c.loaded g xs a = (c.load g a).line := by
  have hnil : earlier g xs a = [] :=
    List.rdropWhile_eq_nil_iff.2 fun x hx => decide_eq_true (htag x hx)
  have hopener : g.fetch (opener g xs a) = g.fetch a := by
    unfold opener
    cases h : resident g xs a with
    | nil => rfl
    | cons x ys =>
      have hx : x ∈ resident g xs a := h ▸ List.mem_cons_self
      exact hfetch x ((List.rtakeWhile_suffix _ _).mem hx)
  unfold loaded load
  rw [hnil, hopener]
  split_ifs <;> simp_all

/-- On accesses to one line that store to the place of `a` what the accesses `f` write at `a`, a
read of `a` is that of a flat memory under these. -/
theorem read_run_flat_map [DecidableEq α] (f : Access α β → Access α β) {xs : List (Access α β)}
    {a : α} {k : κ} (htag : ∀ x ∈ xs, g.tag x.addr = g.tag a)
    (hfetch : ∀ x ∈ xs, g.fetch x.addr = g.fetch a) (hk : g.place a = some k)
    (hstored : ∀ x ∈ xs, g.storedAt k x = (f x).writtenAt a) :
    (c.run g xs).read g a = flat (c.read g) (xs.map f) a := by
  have hxs : resident g xs a = xs :=
    List.rtakeWhile_eq_self_iff.2 fun x hx => decide_eq_true (htag x hx)
  rw [read_run_eq, loaded_of_line htag hfetch, hxs]
  simp only [Geometry.word, hk, Geometry.lastStored, flat, List.filterMap_map,
    List.filterMap_congr hstored, read]
  rfl

/-- On accesses to one line, whose place of `a` is stored to at `a` only, a read of `a` is that of
a flat memory. -/
theorem read_run_flat [DecidableEq α] {xs : List (Access α β)} {a : α} {k : κ}
    (htag : ∀ x ∈ xs, g.tag x.addr = g.tag a) (hfetch : ∀ x ∈ xs, g.fetch x.addr = g.fetch a)
    (hk : g.place a = some k) (hstored : ∀ x ∈ xs, g.storedAt k x = x.writtenAt a) :
    (c.run g xs).read g a = flat (c.read g) xs a := by
  rw [read_run_flat_map id htag hfetch hk hstored, List.map_id]

/-! ## What the accesses cause -/

variable {γ : Type*}

variable (g) in
/-- What a sequence of accesses causes, if an access causes `f` of whether it hits. It hits if the
access before it had its tag, `tag` before the first. -/
def traffic (f : Bool → Access α β → List γ) : τ → List (Access α β) → List γ
  | _, [] => []
  | tag, x :: xs => f (decide (tag = g.tag x.addr)) x ++ traffic f (g.tag x.addr) xs

omit [DecidableEq τ] [DecidableEq κ] in
theorem lastTag_cons (tag : τ) (x : Access α β) (xs : List (Access α β)) :
    lastTag g tag (x :: xs) = lastTag g (g.tag x.addr) xs := by
  cases xs <;> simp [lastTag, List.getLast?_cons]

omit [DecidableEq κ] in
theorem traffic_concat (f : Bool → Access α β → List γ) (x : Access α β) :
    ∀ (tag : τ) (xs : List (Access α β)), traffic g f tag (xs ++ [x]) =
      traffic g f tag xs ++ f (decide (lastTag g tag xs = g.tag x.addr)) x
  | tag, [] => List.append_nil _
  | tag, y :: xs => by
    rw [List.cons_append, traffic, traffic, traffic_concat f x _ xs, lastTag_cons,
      List.append_assoc]

end Cache

end Memory
