import Mathlib.Algebra.GroupWithZero.Nat
import Mathlib.Data.List.Nodup
import Mathlib.Logic.Relation

/-! A loop over pending items, in which handling one item may add others and gives results. -/
namespace Machine
variable {α β κ : Type*} (visit : α → List α × List β)

/-- Handle the pending items, the last one added first. `none` is a loop that was cut off. -/
def drain : ℕ → List α → Option (List β)
  | _, [] => some []
  | 0, _ :: _ => none
  | n+1, a :: pending =>
    (drain n ((visit a).1.reverse ++ pending)).map fun out => (visit a).2 ++ out

/-- The item `a` leads to `b`. -/
abbrev Leads : α → α → Prop := Relation.ReflTransGen fun a b => b ∈ (visit a).1

variable {visit} {n : ℕ} {pending : List α} {out : List β}

/-- Other items that stand for the same ones give the same results. -/
theorem drain_map {γ : Type*} {visit' : γ → List γ × List β} (f : α → γ) (n : ℕ)
    (h : ∀ a, visit' (f a) = ((visit a).1.map f,(visit a).2)) :
    drain visit' n (pending.map f) = drain visit n pending := by
  induction n generalizing pending with
  | zero => cases pending <;> rfl
  | succ n ih =>
    cases pending with
    | nil => rfl
    | cons a pending =>
      rw [List.map_cons,drain,drain,h]
      dsimp only
      rw [← List.map_reverse,← List.map_append,ih]

/-- If the items an item adds are smaller together than itself, the loop ends. -/
theorem drain_isSome (size : α → ℕ) (hsize : ∀ a, ((visit a).1.map size).sum < size a)
    (hn : (pending.map size).sum ≤ n) : (drain visit n pending).isSome := by
  induction n generalizing pending with
  | zero =>
    cases pending with
    | nil => rfl
    | cons a pending =>
      have := hsize a
      rw [List.map_cons,List.sum_cons] at hn
      omega
  | succ n ih =>
    cases pending with
    | nil => rfl
    | cons a pending =>
      have := hsize a
      rw [List.map_cons,List.sum_cons] at hn
      rw [drain,Option.isSome_map]
      apply ih
      rw [List.map_append,List.sum_append,List.map_reverse,List.sum_reverse]
      omega

/-- The results are those of the items that the pending ones lead to. -/
theorem mem_drain (h : drain visit n pending = some out) (b : β) :
    b ∈ out ↔ ∃ a ∈ pending, ∃ a', Leads visit a a' ∧ b ∈ (visit a').2 := by
  induction n generalizing pending out with
  | zero =>
    cases pending with
    | nil =>
      cases h
      simp
    | cons => cases h
  | succ n ih =>
    cases pending with
    | nil =>
      cases h
      simp
    | cons a pending =>
      obtain ⟨out,hout,rfl⟩ := Option.map_eq_some_iff.mp h
      rw [List.mem_append,ih hout]
      constructor
      · rintro (hb | ⟨c,hc,d,hd,hb⟩)
        · exact ⟨a,List.mem_cons_self,a,.refl,hb⟩
        · rcases List.mem_append.mp hc with hc | hc
          · exact ⟨a,List.mem_cons_self,d,.head (List.mem_reverse.mp hc) hd,hb⟩
          · exact ⟨c,List.mem_cons_of_mem _ hc,d,hd,hb⟩
      · rintro ⟨c,hc,d,hd,hb⟩
        rcases List.mem_cons.mp hc with rfl | hc
        · rcases hd.cases_head with rfl | ⟨e,he,hd⟩
          · exact .inl hb
          · exact .inr ⟨e,List.mem_append_left _ (List.mem_reverse.mpr he),d,hd,hb⟩
        · exact .inr ⟨c,List.mem_append_right _ hc,d,hd,hb⟩

/-- Results under different keys: each item gives different ones, and nothing it adds gives one of
those or one that something else it adds gives. -/
theorem nodup_drain (key : β → κ) (region : α → κ → Prop)
    (hout : ∀ a, ((visit a).2.map key).Nodup) (hown : ∀ a, ∀ b ∈ (visit a).2, region a (key b))
    (hadded : ∀ a, ∀ c ∈ (visit a).1, ∀ k, region c k → region a k ∧ k ∉ (visit a).2.map key)
    (hapart : ∀ a, (visit a).1.Pairwise fun c d => ∀ k, region c k → ¬region d k)
    (h : drain visit n pending = some out)
    (hpending : pending.Pairwise fun c d => ∀ k, region c k → ¬region d k) :
    (out.map key).Nodup ∧ ∀ b ∈ out, ∃ a ∈ pending, region a (key b) := by
  induction n generalizing pending out with
  | zero =>
    cases pending with
    | nil =>
      cases h
      simp
    | cons => cases h
  | succ n ih =>
    cases pending with
    | nil =>
      cases h
      simp
    | cons a pending =>
      obtain ⟨out,hdrain,rfl⟩ := Option.map_eq_some_iff.mp h
      obtain ⟨ha,hpending⟩ := List.pairwise_cons.mp hpending
      obtain ⟨hnodup,hregion⟩ := ih hdrain (by
        refine List.pairwise_append.mpr ⟨?_,hpending,?_⟩
        · exact List.pairwise_reverse.mpr ((hapart a).imp fun h k hd hc => h k hc hd)
        · intro c hc d hd k hk
          exact ha d hd k (hadded a c (List.mem_reverse.mp hc) k hk).1)
      refine ⟨?_,fun b hb => ?_⟩
      · rw [List.map_append,List.nodup_append]
        refine ⟨hout a,hnodup,fun k hk l hl hkl => ?_⟩
        subst hkl
        obtain ⟨b,hb,rfl⟩ := List.mem_map.mp hk
        obtain ⟨b',hb',hbb⟩ := List.mem_map.mp hl
        obtain ⟨c,hc,hck⟩ := hregion b' hb'
        rw [hbb] at hck
        rcases List.mem_append.mp hc with hc | hc
        · exact (hadded a c (List.mem_reverse.mp hc) _ hck).2 hk
        · exact ha c hc _ (hown a b hb) hck
      · rcases List.mem_append.mp hb with hb | hb
        · exact ⟨a,List.mem_cons_self,hown a b hb⟩
        · obtain ⟨c,hc,hk⟩ := hregion b hb
          rcases List.mem_append.mp hc with hc | hc
          · exact ⟨a,List.mem_cons_self,(hadded a c (List.mem_reverse.mp hc) _ hk).1⟩
          · exact ⟨c,List.mem_cons_of_mem _ hc,hk⟩

end Machine
