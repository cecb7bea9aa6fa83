import Mathlib.Combinatorics.SimpleGraph.Acyclic

/-!
# Flooding a forest

Something starts at a node of a graph and is passed on from neighbour to neighbour by the nodes that
forward. A node that forwards may leave out neighbours.

* `Toward`: the next node on a path. `Toward.unique`: in a forest there is one.
* `Tree`: the ways back of what has come to a node.
* `Reaches`: it may come to a node from a neighbour.
* `Flooded`: who it came to, from whom. `Flooded.mem_iff`: where no neighbour toward a node was left
  out, it came to the node just when it may.
-/

namespace Techuila
namespace Flooding

variable {V : Type}

open SimpleGraph

/-- From `v`, a path to `o` starts with `q`. -/
def Toward (G : SimpleGraph V) (v q o : V) : Prop :=
  ∃ (h : G.Adj v q) (w : G.Walk q o), (Walk.cons h w).IsPath

theorem Toward.unique {G : SimpleGraph V} (hG : G.IsAcyclic) {v q q' o : V} (h : Toward G v q o)
    (h' : Toward G v q' o) : q = q' := by
  obtain ⟨hq, w, hw⟩ := h
  obtain ⟨hq', w', hw'⟩ := h'
  have he := (hG.subsingleton_path v o).elim ⟨_, hw⟩ ⟨_, hw'⟩
  simpa using congrArg (fun p : G.Path v o => p.1.snd) he

/-- A path stays a path when edges are added. -/
theorem Toward.mono {G G' : SimpleGraph V} (hle : G ≤ G') {v q o : V} (h : Toward G v q o) :
    Toward G' v q o := by
  obtain ⟨hq, w, hw⟩ := h
  refine ⟨hle hq, w.mapLe hle, ?_⟩
  rw [Walk.isPath_def] at hw ⊢
  simpa using hw

/-- Each arrival leads back to the origin, over nodes that were come to. -/
def Tree (G : SimpleGraph V) (origin : V) (arrivals : List (V × V)) : Prop :=
  ∀ e ∈ arrivals, ∃ (h : G.Adj e.2 e.1) (w : G.Walk e.1 origin), (Walk.cons h w).IsPath ∧
    ∀ x ∈ w.support, x = origin ∨ ∃ p, (p, x) ∈ arrivals

theorem Tree.toward {G : SimpleGraph V} {origin : V} {arrivals : List (V × V)}
    (h : Tree G origin arrivals) {e : V × V} (he : e ∈ arrivals) : Toward G e.2 e.1 origin := by
  obtain ⟨hadj, w, hw, -⟩ := h e he
  exact ⟨hadj, w, hw⟩

theorem Tree.cons {G : SimpleGraph V} {origin : V} {arrivals : List (V × V)}
    (h : Tree G origin arrivals) {p c : V} (hp : p = origin ∨ ∃ q, (q, p) ∈ arrivals)
    (hc : ¬ (c = origin ∨ ∃ q, (q, c) ∈ arrivals)) (hadj : G.Adj c p) :
    Tree G origin ((p, c) :: arrivals) := by
  have hway : ∃ w : G.Walk p origin, w.IsPath ∧
      ∀ x ∈ w.support, x = origin ∨ ∃ q, (q, x) ∈ arrivals := by
    rcases hp with rfl | ⟨q, hq⟩
    · exact ⟨.nil, .nil, fun x hx => .inl (by simpa using hx)⟩
    · obtain ⟨hadj', w, hw, hsub⟩ := h _ hq
      refine ⟨.cons hadj' w, hw, fun x hx => ?_⟩
      rw [Walk.support_cons, List.mem_cons] at hx
      rcases hx with rfl | hx
      · exact .inr ⟨q, hq⟩
      · exact hsub x hx
  have hlater : ∀ x, (x = origin ∨ ∃ q, (q, x) ∈ arrivals) →
      x = origin ∨ ∃ q, (q, x) ∈ (p, c) :: arrivals := fun x hx =>
    hx.imp_right fun ⟨q, hq⟩ => ⟨q, List.mem_cons_of_mem _ hq⟩
  intro e he
  rcases List.mem_cons.mp he with rfl | he
  · obtain ⟨w, hw, hsub⟩ := hway
    refine ⟨hadj, w, (Walk.cons_isPath_iff _ _).mpr ⟨hw, fun hm => hc (hsub c hm)⟩, fun x hx => ?_⟩
    exact hlater x (hsub x hx)
  · obtain ⟨hadj', w, hw, hsub⟩ := h e he
    exact ⟨hadj', w, hw, fun x hx => hlater x (hsub x hx)⟩

variable (G : SimpleGraph V) (forwards : V → Prop) (origin : V) (start : V → Prop)

/-- It may come to the second node from the first. -/
inductive Reaches : V → V → Prop
  | first {n : V} : start n → Reaches origin n
  | next {p c d : V} : Reaches p c → forwards c → G.Adj c d → Reaches c d

/-- What is known of a flood, of which each arrival says from whom it came to whom: it is passed on
to all neighbours that are wanted. -/
structure Flooded (wanted : V → V → Prop) (arrivals : List (V × V)) : Prop where
  sound : ∀ e ∈ arrivals, Reaches G forwards origin start e.1 e.2
  back : ∀ e ∈ arrivals, Toward G e.2 e.1 origin
  first : ∀ n, start n → ∃ p, (p, n) ∈ arrivals
  next : ∀ p c, (p, c) ∈ arrivals → forwards c → ∀ d, G.Adj c d → d ≠ p → wanted c d →
    d = origin ∨ ∃ p', (p', d) ∈ arrivals

variable {G forwards origin start}

theorem Reaches.along {q n p d : V} (h : Reaches G forwards origin start q n) (w : G.Walk n p)
    (hw : ∀ x ∈ w.support, forwards x) (hpd : G.Adj p d) : Reaches G forwards origin start p d := by
  induction w generalizing q with
  | nil => exact h.next (hw _ (by simp)) hpd
  | @cons n n' p hadj w ih =>
    exact ih (h.next (hw n (by simp)) hadj) (fun x hx => hw x (by simp [hx])) hpd

/-- The nodes on the way, from the first one to the last one that forwards. -/
theorem Reaches.walk {p d : V} (h : Reaches G forwards origin start p d) :
    p = origin ∧ start d ∨
      ∃ n, start n ∧ G.Adj p d ∧ ∃ w : G.Walk n p, w.IsPath ∧ ∀ x ∈ w.support, forwards x := by
  classical
  induction h with
  | first hn => exact .inl ⟨rfl, hn⟩
  | @next p c d _ hc hcd ih =>
    refine .inr ?_
    rcases ih with ⟨-, hstart⟩ | ⟨n, hn, hpc, w, -, hw⟩
    · exact ⟨c, hstart, hcd, .nil, .nil, by simpa using hc⟩
    · refine ⟨n, hn, hcd, (w.concat hpc).bypass, Walk.bypass_isPath _, fun x hx => ?_⟩
      have hx := Walk.support_bypass_subset_support _ hx
      rw [Walk.support_concat, List.mem_append, List.mem_singleton] at hx
      rcases hx with hx | rfl
      · exact hw x hx
      · exact hc

/-- What comes back to the origin of a forest comes from where it started. -/
theorem Reaches.start_of_origin (hG : G.IsAcyclic) (horigin : ¬ forwards origin)
    (hstart : ∀ n, start n → G.Adj origin n) {p : V}
    (h : Reaches G forwards origin start p origin) : start p := by
  rcases h.walk with ⟨rfl, hn⟩ | ⟨n, hn, hp, w, hw, hforwards⟩
  · exact absurd (hstart _ hn) (G.loopless.irrefl _)
  · have hon : origin ∉ w.support := fun hm => horigin (hforwards _ hm)
    have hdirect : Toward G origin p p :=
      ⟨hp.symm, .nil, by simpa using hp.ne'⟩
    have hover : Toward G origin n p :=
      ⟨hstart n hn, w, (Walk.cons_isPath_iff _ _).mpr ⟨hw, hon⟩⟩
    exact hdirect.unique hG hover ▸ hn

variable {wanted : V → V → Prop} {arrivals : List (V × V)}

/-- It is passed on along a path of nodes that forward. `r` is the way back. -/
theorem Flooded.along (h : Flooded G forwards origin start wanted arrivals) (hG : G.IsAcyclic)
    {p d : V} (hpd : G.Adj p d) (hd : ¬ forwards d) (hwant : ∀ c q, Toward G c q d → wanted c q)
    {v : V} {u : G.Walk v p} (hu : u.IsPath) (hforwards : ∀ x ∈ u.support, forwards x)
    {q : V} {r : G.Walk q origin} {hvq : G.Adj v q} (hr : (Walk.cons hvq r).IsPath)
    (hdisj : ∀ x ∈ u.support, x ∉ r.support) (hdr : d ∉ r.support) (hv : ∃ p', (p', v) ∈ arrivals) :
    ∃ p', (p', d) ∈ arrivals := by
  have hne : ∀ x, x ∉ r.support → x ≠ origin := fun x hx e => hx (e ▸ r.end_mem_support)
  induction u generalizing q with
  | @nil v =>
    obtain ⟨p', hp'⟩ := hv
    obtain rfl := (h.back _ hp').unique hG ⟨hvq, r, hr⟩
    have hvd : v ≠ d := fun e => hd (e ▸ hforwards v (by simp))
    refine (h.next _ _ hp' (hforwards v (by simp)) d hpd ?_ (hwant _ _ ⟨hpd, .nil, ?_⟩)).resolve_left
      (hne d hdr)
    · rintro rfl
      exact hdr r.start_mem_support
    · simpa using hvd
  | @cons v v' p hvv' u ih =>
    rw [Walk.cons_isPath_iff] at hu
    have hforwards' : ∀ x ∈ u.support, forwards x := fun x hx => hforwards x (by simp [hx])
    have hdisj' : ∀ x ∈ u.support, x ∉ r.support := fun x hx => hdisj x (by simp [hx])
    have hv' : v' ∉ r.support := hdisj' v' u.start_mem_support
    have hvd : v ≠ d := fun e => hd (e ▸ hforwards v (by simp))
    -- the way on from `v` goes over `v'`, and the way back to `v` does not
    have hon : Toward G v v' d := by
      refine ⟨hvv', u.concat hpd, ?_⟩
      have hdu : d ∉ u.support := fun hm => hd (hforwards' d hm)
      rw [Walk.cons_isPath_iff, Walk.support_concat, List.mem_append, List.mem_singleton]
      exact ⟨hu.1.concat hdu hpd, fun hm => hm.elim hu.2 hvd⟩
    have hback : (Walk.cons hvv'.symm (Walk.cons hvq r)).IsPath := by
      rw [Walk.cons_isPath_iff, Walk.support_cons, List.mem_cons]
      exact ⟨hr, fun hm => hm.elim (fun e => hu.2 (e ▸ u.start_mem_support)) hv'⟩
    obtain ⟨p', hp'⟩ := hv
    obtain rfl := (h.back _ hp').unique hG ⟨hvq, r, hr⟩
    have hnext := h.next _ _ hp' (hforwards v (by simp)) v' hvv'
      (fun e => hv' (e ▸ r.start_mem_support)) (hwant _ _ hon)
    refine ih hpd hu.1 hforwards' hback (fun x hx => ?_) ?_ (hnext.resolve_left (hne v' hv'))
      (fun x hx => hne x fun hm => hx (by simp [hm]))
    · rw [Walk.support_cons, List.mem_cons]
      exact fun hm => hm.elim (fun e => hu.2 (e ▸ hx)) (hdisj' x hx)
    · rw [Walk.support_cons, List.mem_cons]
      exact fun hm => hm.elim (fun e => hvd e.symm) hdr

/-- In a forest it comes to a node that does not forward, from a neighbour, just when it may. -/
theorem Flooded.mem_iff (h : Flooded G forwards origin start wanted arrivals) (hG : G.IsAcyclic)
    (horigin : ¬ forwards origin) (hstart : ∀ n, start n → G.Adj origin n) {p d : V}
    (hd : ¬ forwards d) (hne : d ≠ origin) (hwant : ∀ c q, Toward G c q d → wanted c q) :
    (p, d) ∈ arrivals ↔ Reaches G forwards origin start p d := by
  refine ⟨h.sound (p, d), fun hr => ?_⟩
  rcases hr.walk with ⟨rfl, hn⟩ | ⟨n, hn, hpd, w, hw, hforwards⟩
  · obtain ⟨p', hp'⟩ := h.first d hn
    have hback : Toward G d p p := ⟨(hstart d hn).symm, .nil, by simpa using hne⟩
    rwa [← (h.back _ hp').unique hG hback]
  · have hon : origin ∉ w.support := fun hm => horigin (hforwards _ hm)
    have hdw : d ∉ w.support := fun hm => hd (hforwards d hm)
    have hfirst : (Walk.cons (hstart n hn).symm (Walk.nil : G.Walk origin origin)).IsPath := by
      simpa using fun e : n = origin => hon (e ▸ w.start_mem_support)
    obtain ⟨p', hp'⟩ := h.along hG hpd hd hwant hw hforwards hfirst
      (fun x hx hm => hon (by simp at hm; exact hm ▸ hx)) (by simpa using hne) (h.first n hn)
    have hback : Toward G d p origin := by
      refine ⟨hpd.symm, w.reverse.concat (hstart n hn).symm, ?_⟩
      rw [Walk.cons_isPath_iff, Walk.support_concat, List.mem_append, List.mem_singleton, Walk.support_reverse, List.mem_reverse]
      refine ⟨hw.reverse.concat ?_ _, fun hm => hm.elim hdw hne⟩
      rwa [Walk.support_reverse, List.mem_reverse]
    rwa [← (h.back _ hp').unique hG hback]

end Flooding
end Techuila
