import Mathlib.Data.List.Basic

/-!
# Writes that become durable in order

A store is a durable image and, oldest first, the images its submitted writes
lead to, each with the tag of the write it ends. Writes become durable in the
order they were submitted, so once the write tagged `t` is durable a crash can
only leave the images from `t` on: these are `since`.
-/

namespace Fifo

variable {α τ : Type}

def images (durable : α) (staged : List (α × τ)) : List α := durable :: staged.map Prod.fst

def newest (durable : α) (staged : List (α × τ)) : α := (staged.getLast?.map Prod.fst).getD durable

def tags (staged : List (α × τ)) : List τ := staged.map Prod.snd

variable {d a x : α} {st new r rest : List (α × τ)} {t u : τ}

theorem newest_mem_images : newest d st ∈ images d st := by
  rcases List.eq_nil_or_concat st with h | ⟨l, p, h⟩ <;> simp [h, newest, images]

theorem images_append : images d (st ++ new) = images d st ++ new.map Prod.fst := by
  simp [images]

@[simp] theorem newest_concat : newest d (st ++ [(a, t)]) = a := by simp [newest]

theorem newest_cons : newest d ((a, u) :: st) = newest a st := by
  rcases List.eq_nil_or_concat st with h | ⟨l, q, h⟩ <;> simp [h, newest, List.getLast?_cons]

theorem mem_images_sync (h : x ∈ images a rest) : x ∈ images d ((a, u) :: rest) := List.mem_cons_of_mem _ h

@[simp] theorem tags_append : tags (st ++ new) = tags st ++ tags new := by simp [tags]

variable [DecidableEq τ]

/-- The images a crash can leave once the write tagged `t` is durable; a tag
that is not staged belongs to a write that already is. -/
def since (durable : α) (staged : List (α × τ)) (t : τ) : List α :=
  if t ∈ tags staged then (staged.dropWhile fun p => p.2 ≠ t).map Prod.fst
  else images durable staged

theorem since_subset_images : since d st t ⊆ images d st := by
  intro x hx
  unfold since at hx
  split at hx
  · obtain ⟨p, hp, rfl⟩ := List.mem_map.mp hx
    exact List.mem_cons_of_mem _ (List.mem_map_of_mem ((List.dropWhile_sublist _).subset hp))
  · exact hx

theorem since_of_notMem (h : t ∉ tags st) : since d st t = images d st := if_neg h

theorem dropWhile_append_of_mem (h : t ∈ tags st) : (st ++ new).dropWhile (fun p => decide (p.2 ≠ t)) =
      st.dropWhile (fun p => decide (p.2 ≠ t)) ++ new := by
  induction st with
  | nil => simp [tags] at h
  | cons p st ih =>
    by_cases hp : p.2 = t
    · simp [hp]
    have h' : t ∈ tags st := by
      simpa [tags, Ne.symm hp] using h
    simpa [List.dropWhile_cons, hp] using ih h'

theorem since_append (h : t ∈ tags st) : since d (st ++ new) t = since d st t ++ new.map Prod.fst := by
  unfold since
  rw [if_pos (by simp [h]), if_pos h, dropWhile_append_of_mem h, List.map_append]

/-- A later write only adds its own images. -/
theorem mem_since_append (h : x ∈ since d (st ++ new) t) : x ∈ since d st t ∨ x ∈ new.map Prod.fst := by
  by_cases hs : t ∈ tags st
  · rw [since_append hs] at h
    exact List.mem_append.mp h
  have := since_subset_images h
  rw [images_append] at this
  rw [since_of_notMem hs]
  exact List.mem_append.mp this

/-- Once a fresh write is durable only its last image can be left. -/
theorem since_fresh (hs : t ∉ tags st) (hp : t ∉ tags r) : since d (st ++ (r ++ [(a, t)])) t = [a] := by
  unfold since
  rw [if_pos (by simp [tags]), ← List.append_assoc]
  have : ∀ l : List (α × τ), t ∉ tags l → (l ++ [(a, t)]).dropWhile (fun p => decide (p.2 ≠ t)) = [(a, t)] := by
    intro l hl
    induction l with
    | nil => simp
    | cons p l ih =>
      have hp : p.2 ≠ t := fun e => hl (by simp [tags, e])
      have hl' : t ∉ tags l := fun e => hl (by simp [tags] at e ⊢; exact .inr e)
      simpa [List.dropWhile_cons, hp] using ih hl'
  rw [this _ (by simp [hs, hp]), List.map_singleton]

theorem mem_since_sync (h : x ∈ since a rest t) : x ∈ since d ((a, u) :: rest) t := by
  unfold since at h ⊢
  by_cases hr : t ∈ tags rest
  · rw [if_pos hr] at h
    rw [if_pos (by simp [tags] at hr ⊢; exact .inr hr)]
    by_cases hu : u = t
    · simp only [List.dropWhile_cons, hu, ne_eq, not_true_eq_false, decide_false, Bool.false_eq_true,
        if_false, List.map_cons, List.mem_cons]
      obtain ⟨p, hp, rfl⟩ := List.mem_map.mp h
      exact .inr (List.mem_map_of_mem ((List.dropWhile_sublist _).subset hp))
    · simpa [List.dropWhile_cons, hu] using h
  · rw [if_neg hr] at h
    by_cases hu : u = t
    · rw [if_pos (by simp [tags, hu])]
      simpa [List.dropWhile_cons, hu, images] using h
    have hn : t ∉ tags ((a, u) :: rest) := by
      simp [tags] at hr ⊢
      exact ⟨fun e => hu e.symm, hr⟩
    rw [if_neg hn]
    exact List.mem_cons_of_mem _ h

theorem newest_mem_since : newest d st ∈ since d st t := by
  by_cases h : t ∈ tags st
  · induction st generalizing d with
    | nil => simp [tags] at h
    | cons p st ih =>
      obtain ⟨a, u⟩ := p
      rw [newest_cons]
      by_cases hst : t ∈ tags st
      · exact mem_since_sync (ih hst)
      apply mem_since_sync
      rw [since_of_notMem hst]
      exact newest_mem_images
  · rw [since_of_notMem h]
    exact newest_mem_images

end Fifo
