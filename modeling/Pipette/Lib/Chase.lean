import Mathlib.Data.List.Nodup
import Mathlib.Tactic.Common

/-! Following links from item to item, where a link may be missing or lead back. -/
namespace Chase

variable {α : Type} (link : α → Option α)

/-- Follow the links from `next` until there is none, one leads to an item seen, or `limit` items are
seen; the flag says that a link is left then. `none` is a walk that takes more than `fuel` steps. -/
def follow [DecidableEq α] (limit : Option Nat) : Nat → List α → Option α → Option (List α × Bool)
  | 0, _, _ => none
  | _ + 1, seen, none => some (seen, false)
  | fuel + 1, seen, some a =>
    if a ∈ seen then some (seen, false)
    else if limit = some (seen.length + 1) then some (seen ++ [a], (link a).isSome)
    else follow limit fuel (seen ++ [a]) (link a)

/-- `seen` are the items met from `start`, and `next` is the link out of the last of them. -/
inductive Trail (start : Option α) : List α → Option α → Prop
  | nil : Trail start [] start
  | snoc {seen : List α} {a : α} (h : Trail start seen (some a)) (ha : a ∉ seen) :
      Trail start (seen ++ [a]) (link a)

inductive Reached (start : Option α) : α → Prop
  | start {a : α} (h : start = some a) : Reached start a
  | link {a b : α} (h : Reached start a) (hab : link a = some b) : Reached start b

variable {link} {start next : Option α} {seen : List α} {a b : α}

namespace Trail

theorem nodup (h : Trail link start seen next) : seen.Nodup := by
  induction h with
  | nil => exact List.nodup_nil
  | snoc _ ha ih => exact List.nodup_append.mpr ⟨ih, List.nodup_singleton _, by grind⟩

theorem reached (h : Trail link start seen next) :
    (∀ a ∈ seen, Reached link start a) ∧ ∀ a, next = some a → Reached link start a := by
  induction h with
  | nil => exact ⟨by simp, fun a h => .start h⟩
  | @snoc seen c h hc ih =>
    have hreached := ih.2 c rfl
    refine ⟨fun a ha => ?_, fun a h => hreached.link h⟩
    rcases List.mem_append.mp ha with ha | ha
    · exact ih.1 a ha
    · exact List.mem_singleton.mp ha ▸ hreached

theorem closed (h : Trail link start seen next) :
    (∀ a, start = some a → a ∈ seen ∨ next = some a) ∧
      ∀ a ∈ seen, ∀ b, link a = some b → b ∈ seen ∨ next = some b := by
  induction h with
  | nil => exact ⟨fun a h => .inr h, by simp⟩
  | snoc h hc ih => grind

theorem mem_of_reached (h : Trail link start seen next) (hnext : ∀ b, next = some b → b ∈ seen)
    (ha : Reached link start a) : a ∈ seen := by
  induction ha with
  | start hstart => exact (h.closed.1 _ hstart).elim id (hnext _)
  | link _ hab ih => exact (h.closed.2 _ ih _ hab).elim id (hnext _)

theorem next_eq (h : Trail link start seen next) (hlast : seen.getLast? = some a) :
    next = link a := by
  cases h with
  | nil => simp at hlast
  | snoc h ha =>
    simp only [List.getLast?_concat, Option.some.injEq] at hlast
    rw [hlast]

end Trail

section Follow

variable [DecidableEq α] {limit : Option Nat} {fuel : Nat} {visited : List α} {flag : Bool}

theorem follow_trail (hlimit : ∀ n ∈ limit, seen.length < n) (h : Trail link start seen next)
    (hfollow : follow link limit fuel seen next = some (visited, flag)) :
    ∃ rest, Trail link start visited rest ∧ (∀ n ∈ limit, visited.length ≤ n) ∧
      (flag = true ↔ limit = some visited.length ∧ rest.isSome) ∧
      (limit = some visited.length ∨ ∀ b, rest = some b → b ∈ visited) := by
  have hshort : limit ≠ some seen.length := fun hn => Nat.lt_irrefl _ (hlimit _ hn)
  have hle : ∀ n ∈ limit, seen.length ≤ n := fun n hn => Nat.le_of_lt (hlimit n hn)
  induction fuel generalizing seen next with
  | zero => simp [follow] at hfollow
  | succ fuel ih =>
    cases next with
    | none =>
      simp only [follow, Option.some.injEq, Prod.mk.injEq] at hfollow
      obtain ⟨rfl, rfl⟩ := hfollow
      exact ⟨none, h, hle, by simp, .inr (by simp)⟩
    | some a =>
      simp only [follow] at hfollow
      split at hfollow
      · next hseen =>
        simp only [Option.some.injEq, Prod.mk.injEq] at hfollow
        obtain ⟨rfl, rfl⟩ := hfollow
        exact ⟨some a, h, hle, by simp [hshort], .inr (by simpa using hseen)⟩
      · next hnew =>
        split at hfollow
        · next hfull =>
          simp only [Option.some.injEq, Prod.mk.injEq] at hfollow
          obtain ⟨rfl, rfl⟩ := hfollow
          exact ⟨link a, h.snoc hnew, by simp [hfull], by simp [hfull], .inl (by simp [hfull])⟩
        · next hroom =>
          have hgrown : ∀ n ∈ limit, (seen ++ [a]).length < n := by
            intro n hn
            have hne : n ≠ seen.length + 1 := fun he => hroom (he ▸ hn)
            have hlt := hlimit n hn
            simp only [List.length_append, List.length_singleton]
            omega
          exact ih hgrown (h.snoc hnew) hfollow (fun hn => Nat.lt_irrefl _ (hgrown _ hn))
            fun n hn => Nat.le_of_lt (hgrown n hn)

theorem length_unseen_lt {present : List α} (ha : a ∈ present) (hnew : a ∉ seen) :
    (present.filter (· ∉ seen ++ [a])).length < (present.filter (· ∉ seen)).length := by
  have hmem : a ∈ present.filter (· ∉ seen) := List.mem_filter.mpr ⟨ha, by simpa using hnew⟩
  have hfilter : present.filter (· ∉ seen ++ [a]) =
      (present.filter (· ∉ seen)).filter (· ≠ a) := by
    rw [List.filter_filter]
    exact List.filter_congr fun c _ => by simp [and_comm]
  rw [hfilter]
  exact List.length_filter_lt_length_iff_exists.mpr ⟨a, hmem, by simp⟩

theorem follow_ends (limit : Option Nat) (seen : List α) (next : Option α) {present : List α}
    (hpresent : ∀ a b, link a = some b → a ∈ present) {fuel : Nat}
    (hfuel : (present.filter (· ∉ seen)).length + 2 ≤ fuel) :
    (follow link limit fuel seen next).isSome := by
  induction fuel generalizing seen next with
  | zero => omega
  | succ fuel ih =>
    cases next with
    | none => rfl
    | some a =>
      simp only [follow]
      split
      · rfl
      split
      · rfl
      next hnew _ =>
      cases hlink : link a with
      | none =>
        obtain ⟨fuel, rfl⟩ : ∃ n, fuel = n + 1 := ⟨fuel - 1, by omega⟩
        rfl
      | some b =>
        apply ih
        have hlt := length_unseen_lt (hpresent a b hlink) hnew
        omega

end Follow

end Chase
