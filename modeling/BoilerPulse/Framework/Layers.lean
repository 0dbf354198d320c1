import Mathlib.Logic.Function.Basic
import Mathlib.Order.Basic
import Mathlib.Data.List.AList

/-!
# Maps kept in layers

A map whose content is spread over layers, of which a newer one hides what the older ones
hold for the same key: `overlay` puts one layer on another, `stack` a whole list of them. Entries
may be *dead* from some time on — deleted, or expired — and a dead entry may be
dropped as long as nothing older comes to light by it.

`Prunes dead t m h` says that `m` is such a remainder of `h`: the same map, except that entries
that are dead at `t` may be missing. Readers cannot tell the two apart at `t` or later
(`Prunes.live_eq`), and the usual maintenance keeps the relation:

* writing on top (`Prunes.writes`);
* merging the layers and dropping what is dead, with the merged layer laid over whatever is
  left of the old ones (`Prunes.overlay_live`, `Prunes.overlay_live_of_below`);
* replacing a top layer by a larger one that agrees with it (`Prunes.overlay_of_below`).
-/

namespace Framework

variable {κ ε : Type} {k : κ}

/-- A partial map from keys to entries. -/
abbrev Layer (κ ε : Type) := κ → Option ε

/-- `top` laid over `bottom`. -/
def overlay (top bottom : Layer κ ε) : Layer κ ε :=
  fun k => (top k).or (bottom k)

/-- Layers on top of each other, the oldest first. -/
def stack : List (Layer κ ε) → Layer κ ε
  | [] => fun _ => none
  | l :: ls => overlay (stack ls) l

theorem overlay_assoc (a b c : Layer κ ε) : overlay (overlay a b) c = overlay a (overlay b c) :=
  funext fun _ => Option.or_assoc

@[simp] theorem overlay_empty (m : Layer κ ε) : overlay m (fun _ => none) = m :=
  funext fun _ => Option.or_none

@[simp] theorem empty_overlay (m : Layer κ ε) : overlay (fun _ => none) m = m :=
  funext fun _ => Option.none_or

theorem overlay_of_eq_some {a b : Layer κ ε} {e : ε} (h : a k = some e) :
    overlay a b k = some e := by
  rw [overlay, h, Option.some_or]

theorem overlay_of_eq_none {a b : Layer κ ε} (h : a k = none) : overlay a b k = b k := by
  rw [overlay, h, Option.none_or]

theorem stack_append (ls ms : List (Layer κ ε)) :
    stack (ls ++ ms) = overlay (stack ms) (stack ls) := by
  induction ls with
  | nil => exact (overlay_empty _).symm
  | cons l ls ih => rw [List.cons_append, stack, ih, overlay_assoc, stack]

@[simp] theorem stack_concat (ls : List (Layer κ ε)) (l : Layer κ ε) :
    stack (ls ++ [l]) = overlay l (stack ls) := by
  rw [stack_append, stack, stack, empty_overlay]

/-! ### Parts of a layer -/

/-- Whatever `l` holds, `m` holds too. -/
def Below (l m : Layer κ ε) : Prop :=
  ∀ k e, l k = some e → m k = some e

theorem Below.refl (l : Layer κ ε) : Below l l :=
  fun _ _ h => h

theorem below_empty (m : Layer κ ε) : Below (fun _ => none) m :=
  nofun

/-- What a stack holds is in one of its layers. -/
theorem exists_of_stack_eq_some {ls : List (Layer κ ε)} {e : ε} (h : stack ls k = some e) :
    ∃ l ∈ ls, l k = some e := by
  induction ls with
  | nil => cases h
  | cons l ls ih =>
    rw [stack, overlay, Option.or_eq_some_iff] at h
    rcases h with h | ⟨-, h⟩
    · obtain ⟨l', hl', hk⟩ := ih h
      exact ⟨l', List.mem_cons_of_mem l hl', hk⟩
    · exact ⟨l, List.mem_cons_self, h⟩

/-- The newest layers of a stack are a part of it. -/
theorem below_stack_drop (ls : List (Layer κ ε)) (i : ℕ) :
    Below (stack (ls.drop i)) (stack ls) := by
  intro k e h
  conv_lhs => rw [← List.take_append_drop i ls]
  rw [stack_append]
  exact overlay_of_eq_some h

theorem Below.overlay_eq {l m : Layer κ ε} (h : Below l m) (d : Layer κ ε) :
    overlay l (overlay m d) = overlay m d := by
  funext k
  cases hl : l k with
  | none => exact overlay_of_eq_none hl
  | some e => rw [overlay_of_eq_some hl, overlay_of_eq_some (h k e hl)]

/-! ### Writes -/

section Writes

variable [DecidableEq κ] {ws : List (κ × ε)}

/-- Write entries into a layer, one after the other. -/
def writes : Layer κ ε → List (κ × ε) → Layer κ ε
  | m, [] => m
  | m, w :: ws => writes (Function.update m w.1 (some w.2)) ws

@[simp] theorem writes_nil (m : Layer κ ε) : writes m [] = m := rfl

@[simp] theorem writes_cons (m : Layer κ ε) (w : κ × ε) (ws : List (κ × ε)) :
    writes m (w :: ws) = writes (Function.update m w.1 (some w.2)) ws := rfl

theorem writes_append (ws vs : List (κ × ε)) : ∀ m : Layer κ ε,
    writes m (ws ++ vs) = writes (writes m ws) vs := by
  induction ws with
  | nil => intro m; rfl
  | cons w ws ih => intro m; exact ih _

theorem writes_congr {m m' : Layer κ ε} : ∀ {k : κ}, m k = m' k →
    writes m ws k = writes m' ws k := by
  induction ws generalizing m m' with
  | nil => intro k h; exact h
  | cons w ws ih =>
    intro k h
    refine ih ?_
    by_cases hk : k = w.1
    · subst hk
      rw [Function.update_self, Function.update_self]
    · rw [Function.update_of_ne hk, Function.update_of_ne hk, h]

theorem overlay_update (m d : Layer κ ε) (k : κ) (e : ε) :
    overlay (Function.update m k (some e)) d = Function.update (overlay m d) k (some e) := by
  funext k'
  by_cases h : k' = k
  · subst h
    rw [Function.update_self]
    exact overlay_of_eq_some (Function.update_self ..)
  · rw [Function.update_of_ne h, overlay, Function.update_of_ne h, overlay]

/-- What is there after some writes was there before, or was written. -/
theorem eq_some_of_writes {k : κ} {e : ε} : ∀ {m : Layer κ ε},
    writes m ws k = some e → m k = some e ∨ (k, e) ∈ ws := by
  induction ws with
  | nil => intro m h; exact .inl h
  | cons w ws ih =>
    intro m h
    rcases ih h with hm | hmem
    · by_cases hk : k = w.1
      · subst hk
        rw [Function.update_self] at hm
        cases hm
        exact .inr List.mem_cons_self
      · rw [Function.update_of_ne hk] at hm
        exact .inl hm
    · exact .inr (List.mem_cons_of_mem w hmem)

/-- Writes to other keys do not matter. -/
theorem writes_of_forall_ne {k : κ} : ∀ {m : Layer κ ε},
    (∀ w ∈ ws, w.1 ≠ k) → writes m ws k = m k := by
  induction ws with
  | nil => intro m _; rfl
  | cons w ws ih =>
    intro m h
    rw [writes_cons, ih fun w' hw' => h w' (List.mem_cons_of_mem w hw')]
    exact Function.update_of_ne (h w List.mem_cons_self).symm _ _

/-- The last write to a key decides. -/
theorem writes_eq_find (ws : List (κ × ε)) (k : κ) : ∀ m : Layer κ ε,
    writes m ws k = ((ws.reverse.find? fun w => w.1 = k).map fun w => w.2).or (m k) := by
  induction ws with
  | nil => intro m; rfl
  | cons w ws ih =>
    intro m
    rw [writes_cons, ih, List.reverse_cons, List.find?_append]
    cases hf : ws.reverse.find? fun w => w.1 = k with
    | some w' => simp
    | none =>
      by_cases hk : w.1 = k
      · subst hk; simp
      · rw [Function.update_of_ne (Ne.symm hk)]; simp [hk]

theorem overlay_writes (d : Layer κ ε) (ws : List (κ × ε)) : ∀ m : Layer κ ε,
    overlay (writes m ws) d = writes (overlay m d) ws := by
  induction ws with
  | nil => intro m; rfl
  | cons w ws ih => intro m; rw [writes_cons, ih, overlay_update, writes_cons]

theorem writes_eq_overlay (m : Layer κ ε) (ws : List (κ × ε)) :
    writes m ws = overlay (writes (fun _ => none) ws) m := by
  rw [overlay_writes, empty_overlay]

theorem Below.update {l m : Layer κ ε} (h : Below l m) (k : κ) (e : ε) :
    Below (Function.update l k (some e)) (Function.update m k (some e)) := by
  intro k' e' hk
  by_cases hkk : k' = k
  · subst hkk
    rw [Function.update_self] at hk ⊢
    exact hk
  · rw [Function.update_of_ne hkk] at hk ⊢
    exact h k' e' hk

theorem Below.writes : ∀ {l m : Layer κ ε}, Below l m →
    Below (writes l ws) (writes m ws) := by
  induction ws with
  | nil => intro l m h; exact h
  | cons w ws ih => intro l m h; exact ih (h.update w.1 w.2)

/-- Writing only to the keys that satisfy `p`. -/
theorem writes_filter (p : κ → Bool) (ws : List (κ × ε)) (k : κ) : ∀ m : Layer κ ε,
    writes m (ws.filter fun w => p w.1) k = if p k then writes m ws k else m k := by
  induction ws with
  | nil => intro m; simp
  | cons w ws ih =>
    intro m
    rw [List.filter_cons]
    by_cases hw : p w.1 = true
    · rw [if_pos hw, writes_cons, ih, writes_cons]
      split
      · rfl
      · next hk =>
        have hne : k ≠ w.1 := fun h => hk (h ▸ hw)
        exact Function.update_of_ne hne _ _
    · rw [if_neg hw, ih, writes_cons]
      split
      · next hk =>
        -- the dropped write is to another key
        have hne : k ≠ w.1 := fun h => hw (h ▸ hk)
        exact writes_congr (Function.update_of_ne hne _ _).symm
      · rfl

/-- Copying the entries of a layer for a list of keys. -/
theorem writes_copy (l : Layer κ ε) (ks : List κ) : ∀ (m : Layer κ ε) (k : κ),
    writes m (ks.filterMap fun k => (l k).map fun e => (k, e)) k
      = if k ∈ ks then (l k).or (m k) else m k := by
  induction ks with
  | nil => intro m k; simp
  | cons k' ks ih =>
    intro m k
    cases hl : l k' with
    | none =>
      rw [List.filterMap_cons, hl, Option.map_none]
      simp only
      rw [ih]
      by_cases hk : k = k'
      · subst hk; simp [hl]
      · simp [hk]
    | some e =>
      rw [List.filterMap_cons, hl, Option.map_some]
      simp only
      rw [writes_cons, ih]
      by_cases hk : k = k'
      · subst hk; simp [hl]
      · simp [hk]

end Writes

/-! ### Association lists -/

section AssocList

variable [DecidableEq κ]

/-- The layer that an association list holds. -/
def layerOf (m : AList fun _ : κ => ε) : Layer κ ε :=
  fun k => m.lookup k

/-- Insert pairs one after the other. -/
def insertAll (m : AList fun _ : κ => ε) (ws : List (κ × ε)) : AList fun _ : κ => ε :=
  ws.foldl (fun m w => m.insert w.1 w.2) m

/-- The pairs of an association list. -/
def pairsOf (m : AList fun _ : κ => ε) : List (κ × ε) :=
  m.keys.filterMap fun k => (m.lookup k).map fun e => (k, e)

@[simp] theorem layerOf_empty : layerOf (∅ : AList fun _ : κ => ε) = fun _ => none :=
  funext fun k => AList.lookup_empty k

theorem layerOf_insert (m : AList fun _ : κ => ε) (k : κ) (e : ε) :
    layerOf (m.insert k e) = Function.update (layerOf m) k (some e) := by
  funext k'
  by_cases h : k' = k
  · subst h
    rw [Function.update_self]
    exact AList.lookup_insert m
  · rw [Function.update_of_ne h]
    exact AList.lookup_insert_ne h

theorem layerOf_insertAll (ws : List (κ × ε)) : ∀ m : AList fun _ : κ => ε,
    layerOf (insertAll m ws) = writes (layerOf m) ws := by
  induction ws with
  | nil => intro m; rfl
  | cons w ws ih =>
    intro m
    rw [writes_cons, ← layerOf_insert]
    exact ih _

theorem mem_keys_iff {m : AList fun _ : κ => ε} {k : κ} :
    k ∈ m.keys ↔ (layerOf m k).isSome = true := by
  rw [← AList.mem_keys, ← AList.lookup_isSome]
  rfl

/-- Writing the pairs that satisfy `q`. -/
theorem writes_pairsOf_filter (m : AList fun _ : κ => ε) (q : κ × ε → Bool) :
    writes (fun _ => none) ((pairsOf m).filter q)
      = fun k => (layerOf m k).filter fun e => q (k, e) := by
  have hpairs : (pairsOf m).filter q = m.keys.filterMap fun k =>
      ((layerOf m k).filter fun e => q (k, e)).map fun e => (k, e) := by
    rw [pairsOf, List.filter_filterMap]
    congr 1
    funext k
    change Option.filter q (Option.map _ (layerOf m k)) = _
    rw [Option.filter_map]
    rfl
  funext k
  rw [hpairs, writes_copy, Option.or_none]
  split
  · rfl
  · next hk =>
    have hnone : layerOf m k = none :=
      Option.not_isSome_iff_eq_none.mp fun h => hk (mem_keys_iff.mpr h)
    rw [hnone]
    rfl

end AssocList

/-! ### Dead entries -/

section Dead

variable {τ : Type} (dead : τ → ε → Bool) {e : ε} {k : κ}

/-- What a reader sees of a map at time `t`. -/
def live (t : τ) (m : Layer κ ε) : Layer κ ε :=
  fun k => (m k).filter fun e => !dead t e

theorem live_eq_some {t : τ} {m : Layer κ ε} :
    live dead t m k = some e ↔ m k = some e ∧ dead t e = false := by
  rw [live, Option.filter_eq_some_iff, Bool.not_eq_true']

/-- `m` is `h`, except that entries that are dead at `t` may be missing. -/
def Prunes (t : τ) (m h : Layer κ ε) : Prop :=
  ∀ k, m k = h k ∨ m k = none ∧ ∀ e, h k = some e → dead t e = true

variable {dead} {t : τ} {m h : Layer κ ε}

theorem Prunes.refl (t : τ) (m : Layer κ ε) : Prunes dead t m m :=
  fun _ => .inl rfl

/-- Nothing is changed by pruning. -/
theorem Prunes.eq_of_some (hp : Prunes dead t m h) (hk : m k = some e) :
    h k = some e := by
  rcases hp k with heq | ⟨hnone, -⟩
  · rw [← heq, hk]
  · rw [hnone] at hk
    cases hk

/-- What is missing is dead. -/
theorem Prunes.dead_of_none (hp : Prunes dead t m h) (hk : m k = none) (he : h k = some e)
    : dead t e = true := by
  rcases hp k with heq | ⟨-, hdead⟩
  · rw [← heq, hk] at he
    cases he
  · exact hdead e he

theorem prunes_of (hsome : ∀ k e, m k = some e → h k = some e)
    (hnone : ∀ k e, m k = none → h k = some e → dead t e = true) : Prunes dead t m h := by
  intro k
  cases hm : m k with
  | some e => exact .inl (hsome k e hm).symm
  | none => exact .inr ⟨rfl, fun e he => hnone k e hm he⟩

/-- Another instant will do if what is dead at the first is dead there as well. -/
theorem Prunes.imp {t' : τ} (hp : Prunes dead t m h)
    (himp : ∀ k e, h k = some e → dead t e = true → dead t' e = true) : Prunes dead t' m h :=
  fun k => (hp k).imp id fun hk => ⟨hk.1, fun e he => himp k e he (hk.2 e he)⟩

section Mono

variable [Preorder τ]

/-- What is dead stays dead. -/
def Ages (dead : τ → ε → Bool) : Prop :=
  ∀ t t' e, t ≤ t' → dead t e = true → dead t' e = true

theorem Prunes.mono (hages : Ages dead) {t' : τ} (hp : Prunes dead t m h) (hle : t ≤ t') :
    Prunes dead t' m h :=
  hp.imp fun _ e _ => hages t t' e hle

/-- Readers cannot tell a pruned map from the whole one. -/
theorem Prunes.live_eq (hages : Ages dead) {t' : τ} (hp : Prunes dead t m h) (hle : t ≤ t') :
    live dead t' m = live dead t' h := by
  funext k
  rcases hp k with heq | ⟨hnone, hdead⟩
  · rw [live, live, heq]
  · rw [live, live, hnone]
    cases hk : h k with
    | none => rfl
    | some e =>
      have := hages t t' e hle (hdead e hk)
      simp [Option.filter, this]

end Mono

theorem Prunes.update [DecidableEq κ] (hp : Prunes dead t m h) (k : κ) (e : ε) :
    Prunes dead t (Function.update m k (some e)) (Function.update h k (some e)) := by
  intro k'
  by_cases hk : k' = k
  · subst hk
    exact .inl (by rw [Function.update_self, Function.update_self])
  · rw [Function.update_of_ne hk, Function.update_of_ne hk]
    exact hp k'

theorem Prunes.writes [DecidableEq κ] {ws : List (κ × ε)} : ∀ {m h : Layer κ ε},
    Prunes dead t m h → Prunes dead t (writes m ws) (writes h ws) := by
  induction ws with
  | nil => intro m h hp; exact hp
  | cons w ws ih => intro m h hp; exact ih (hp.update w.1 w.2)

/-- The live part of a pruned map, laid over another pruned map. -/
theorem Prunes.overlay_live {l d : Layer κ ε} (hl : Prunes dead t l h) (hd : Prunes dead t d h) :
    Prunes dead t (Framework.overlay (live dead t l) d) h := by
  intro k
  cases hk : live dead t l k with
  | some e =>
    rw [overlay_of_eq_some hk]
    exact .inl (hl.eq_of_some ((live_eq_some dead).mp hk).1).symm
  | none => rw [overlay_of_eq_none hk]; exact hd k

/-- The live part of a pruned map, laid over any part of that map. -/
theorem Prunes.overlay_live_of_below {l d : Layer κ ε} (hl : Prunes dead t l h) (hd : Below d l) :
    Prunes dead t (Framework.overlay (live dead t l) d) h := by
  refine prunes_of (fun k e hk => ?_) fun k e hk he => ?_
  · cases hlive : live dead t l k with
    | some e' =>
      rw [overlay_of_eq_some hlive] at hk
      exact hl.eq_of_some (hk ▸ ((live_eq_some dead).mp hlive).1)
    | none =>
      rw [overlay_of_eq_none hlive] at hk
      exact hl.eq_of_some (hd k e hk)
  · -- the entry is in neither layer, so it is missing from `l` or was dropped as dead
    have hlive : live dead t l k = none := (Option.or_eq_none_iff.mp hk).1
    cases hlk : l k with
    | none => exact hl.dead_of_none hlk he
    | some e' =>
      obtain rfl : e' = e := Option.some.inj ((hl.eq_of_some hlk).symm.trans he)
      by_contra hdead
      have hnot := (live_eq_some dead).mpr ⟨hlk, Bool.eq_false_iff.mpr hdead⟩
      rw [hlive] at hnot
      cases hnot

/-- A top layer may be replaced by a larger one that is right where it has something. -/
theorem Prunes.overlay_of_below {l a b d : Layer κ ε} (hla : Below l a)
    (ha : Prunes dead t (Framework.overlay a b) h) (hl : Prunes dead t (Framework.overlay l d) h) :
    Prunes dead t (Framework.overlay a d) h := by
  intro k
  cases hk : a k with
  | some e =>
    rw [overlay_of_eq_some hk]
    exact .inl (ha.eq_of_some (overlay_of_eq_some hk)).symm
  | none =>
    have hlk : l k = none := by
      cases hl' : l k with
      | none => rfl
      | some e => rw [hla k e hl'] at hk; cases hk
    rw [overlay_of_eq_none hk, ← overlay_of_eq_none hlk (b := d)]
    exact hl k

end Dead

end Framework
