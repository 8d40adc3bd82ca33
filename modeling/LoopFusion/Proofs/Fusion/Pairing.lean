import LoopFusion.Fusion.Pass
import LoopFusion.Proofs.Flow.Preorder
import LoopFusion.Proofs.Fusion.Pair

/-!
The driver misses no legal pair. Two loops that a checker accepts stand side by side, with no other
loop of their parent between them, so the last loop seen at the depth of the second is the first.
-/

namespace LoopFusion

open Relation LoopFusion.Flow

namespace LoopForest

/-- Among the loops with one parent, `b` comes right behind `a` in preorder. -/
structure NextSibling (t : LoopForest) (a b : Loop) : Prop where
  parent : a.parent? = b.parent?
  before : Precedes t.preorder a.id b.id
  between : ∀ c ∈ t.loops, c.parent? = b.parent? →
    ¬ (Precedes t.preorder a.id c.id ∧ Precedes t.preorder c.id b.id)

def inPreorderLoops (t : LoopForest) : List Loop := t.preorder.filterMap t.loop?

theorem map_filterMap_loop? {t : LoopForest} {is : List LoopId}
    (h : ∀ i ∈ is, ∃ l, t.loop? i = some l ∧ l.id = i) :
    (is.filterMap t.loop?).map (·.id) = is := by
  induction is with
  | nil => rfl
  | cons i is ih =>
    obtain ⟨⟨l, hl, hid⟩, h⟩ := List.forall_mem_cons.1 h
    rw [List.filterMap_cons_some hl, List.map_cons, ih h, hid]

variable {f : Func} {e : BlockId} {a b l : Loop} (hf : f.InArena) (he : f.entry? = some e)

include hf he

theorem ids_inPreorderLoops : f.forest.inPreorderLoops.map (·.id) = f.forest.preorder := by
  refine map_filterMap_loop? fun i hi => ?_
  obtain ⟨l, hl, rfl⟩ := (mem_preorder hf he).1 hi
  exact ⟨l, loop?_id hl, rfl⟩

theorem mem_inPreorderLoops : l ∈ f.forest.inPreorderLoops ↔ l ∈ f.forest.loops := by
  rw [inPreorderLoops, List.mem_filterMap]
  constructor
  · rintro ⟨i, -, hi⟩
    exact (mem_of_loop? hi).1
  · intro hl
    exact ⟨l.id, (mem_preorder hf he).2 ⟨l, hl, rfl⟩, loop?_id hl⟩

/-- What stands between two loops side by side is inside their parent, so at their depth it is
another loop of that parent. -/
theorem parent?_eq_of_between (ha : a ∈ f.forest.loops) (hb : b ∈ f.forest.loops)
    (hl : l ∈ f.forest.loops) (hpar : a.parent? = b.parent?)
    (hal : Precedes f.forest.preorder a.id l.id) (hlb : Precedes f.forest.preorder l.id b.id)
    (hdepth : f.forest.depth l.id = f.forest.depth b.id) : l.parent? = b.parent? := by
  have hnodup := nodup_preorder hf he
  have hdl := depth_of_parent hf he hl
  have hdb := depth_of_parent hf he hb
  cases hp : b.parent? with
  | none =>
    cases hq : l.parent? with
    | none => rfl
    | some q =>
      rw [hp] at hdb
      rw [hq] at hdl
      simp only [Option.elim_none, Option.elim_some, depth] at hdl hdb hdepth
      omega
  | some i =>
    obtain ⟨p, rfl, hsb⟩ := (parent?_eq_some_iff_smallest hf he hb).1 hp
    obtain ⟨p', hid, hsa⟩ := (parent?_eq_some_iff_smallest hf he ha).1 (hpar.trans hp)
    obtain rfl := eq_of_id hsa.mem hsb.mem hid
    obtain ⟨s, inner, t, hst, hinner⟩ := exists_contiguous hf he hsb.mem
    have hain := (hinner a ha).2 hsa.holds
    have hbin := (hinner b hb).2 hsb.holds
    rw [← List.singleton_append, ← List.append_assoc] at hst
    rw [hst] at hal hlb hnodup
    have hlp : l.Inside p' := (hinner l hl).1 (hal.mem_piece hnodup hain hbin hlb)
    cases hq : l.parent? with
    | none => exact absurd hlp ((parent?_eq_none_iff_inside hf he hl).1 hq p' hsb.mem)
    | some j =>
      obtain ⟨q, rfl, hsq⟩ := (parent?_eq_some_iff_smallest hf he hl).1 hq
      by_cases hqp : p' = q
      · rw [hqp]
      · have hlt := depth_lt_of_inside hf he hsq.mem hsb.mem (hsq.least p' hsb.mem hlp hqp).1
        rw [hp, Option.elim_some] at hdb
        rw [hq, Option.elim_some] at hdl
        omega

end LoopForest

namespace Pass

variable {c : Checker} {sc : Scan} {seen : LastSeen} {ls rest : List Loop} {prev l : Loop}

def checker (config : FusionConfig) (f : Func) : Checker := .builtIn (.ofFunc f) config.keepOutputs

/-- The walk at a loop `l` for which `prev` is the loop to pair it with. -/
def examine (c : Checker) (sc : Scan) (prev l : Loop) (next : Scan → Inquiry Scan) :
    Inquiry Scan := do
  let names := pairName c.func prev l
  let both := names.first ++ " and " ++ names.second
  let sc := { sc with candidates := sc.candidates + 1 }
  trace ("candidate found: " ++ both)
  match ← judge c prev l with
  | .ok plan =>
    trace ("candidate " ++ both ++ " is legal")
    return { sc with plan? := some plan }
  | .error r =>
    trace ("candidate " ++ both ++ " is illegal: " ++ r.text)
    next { sc with rejected := ⟨names, r.kind, r.message⟩ :: sc.rejected }

/-- The loops seen after a walk over `ls`, each with its depth. -/
def seenAfter (c : Checker) (ls : List Loop) (seen : LastSeen) : LastSeen :=
  (ls.map fun l => (c.facts.loops.depth l.id, l)).reverse ++ seen

theorem seenAfter_cons : seenAfter c (l :: ls) seen =
    seenAfter c ls ((c.facts.loops.depth l.id, l) :: seen) := by
  simp [seenAfter]

theorem walk_unpaired
    (h : (seen.lookup (c.facts.loops.depth l.id)).filter (·.parent? = l.parent?) = none) :
    walk c sc seen (l :: rest) = walk c sc ((c.facts.loops.depth l.id, l) :: seen) rest := by
  rw [walk, h]

theorem walk_paired
    (h : (seen.lookup (c.facts.loops.depth l.id)).filter (·.parent? = l.parent?) = some prev) :
    walk c sc seen (l :: rest) = examine c sc prev l fun sc =>
      walk c sc ((c.facts.loops.depth l.id, l) :: seen) rest := by
  rw [walk, h]
  rfl

/-- A walk goes on where another ends, unless that one has found a plan. -/
theorem walk_append (hsc : sc.plan? = none) : walk c sc seen (ls ++ rest) = (do
    let sc ← walk c sc seen ls
    if sc.plan?.isSome then return sc else walk c sc (seenAfter c ls seen) rest) := by
  induction ls generalizing sc seen with
  | nil => simp [walk, seenAfter, hsc]
  | cons l ls ih =>
    rw [List.cons_append, seenAfter_cons]
    cases h : (seen.lookup (c.facts.loops.depth l.id)).filter (·.parent? = l.parent?) with
    | none => rw [walk_unpaired h, walk_unpaired h, ih hsc]
    | some prev =>
      rw [walk_paired h, walk_paired h, examine, examine, bind_assoc]
      refine bind_congr fun _ => ?_
      rw [bind_assoc]
      refine bind_congr fun verdict => ?_
      cases verdict with
      | ok plan => rfl
      | error r =>
        dsimp only
        rw [bind_assoc]
        exact bind_congr fun _ => ih hsc

theorem lookup_seenAfter {vs ws : List Loop} {x : Loop} {d : Nat}
    (hx : c.facts.loops.depth x.id = d) (hw : ∀ w ∈ ws, c.facts.loops.depth w.id ≠ d) :
    (seenAfter c (vs ++ x :: ws) seen).lookup d = some x := by
  have hnone : ((ws.map fun l => (c.facts.loops.depth l.id, l)).reverse).lookup d = none := by
    refine List.lookup_eq_none_iff.2 fun y hy => ?_
    obtain ⟨w, hmem, rfl⟩ := List.mem_map.1 (List.mem_reverse.1 hy)
    exact bne_iff_ne.2 (hw w hmem).symm
  rw [seenAfter, List.map_append, List.map_cons, List.reverse_append, List.reverse_cons,
    List.append_assoc, List.append_assoc, List.lookup_append, hnone, Option.none_or, hx]
  exact List.lookup_cons_self

theorem seenAfter_snoc :
    seenAfter c (ls ++ [l]) seen = (c.facts.loops.depth l.id, l) :: seenAfter c ls seen := by
  simp [seenAfter]

end Pass

namespace LoopForest

variable {f : Func} {e : BlockId} {a b : Loop}

theorem NextSibling.exists_split (h : f.forest.NextSibling a b) (hf : f.InArena)
    (he : f.entry? = some e) (ha : a ∈ f.forest.loops) (hb : b ∈ f.forest.loops) :
    ∃ before ws after, f.forest.inPreorderLoops = before ++ a :: ws ++ b :: after ∧
      ∀ w ∈ ws, f.forest.depth w.id ≠ f.forest.depth b.id := by
  have hids := ids_inPreorderLoops hf he
  have hnodup := nodup_preorder hf he
  have hmap : ∀ {u v}, Precedes f.forest.inPreorderLoops u v →
      Precedes f.forest.preorder u.id v.id := fun h => hids ▸ h.map (·.id)
  have hab : Precedes f.forest.inPreorderLoops a b := by
    have hne : a ≠ b := fun hab => h.before.ne hnodup (congrArg Loop.id hab)
    refine (Precedes.total ((mem_inPreorderLoops hf he).2 ha) ((mem_inPreorderLoops hf he).2 hb)
      hne).resolve_right fun hba => ?_
    exact h.before.asymm hnodup (hmap hba)
  obtain ⟨before, t, ht, hbt⟩ := hab.exists_split
  obtain ⟨ws, after, rfl⟩ := List.append_of_mem hbt
  refine ⟨before, ws, after, by simp [ht], fun w hw hdepth => ?_⟩
  have behind : f.forest.inPreorderLoops = (before ++ [a]) ++ (ws ++ b :: after) := by simp [ht]
  have haw : Precedes f.forest.inPreorderLoops a w := by
    rw [behind]
    exact precedes_append (by simp) (List.mem_append_left _ hw)
  have ahead : f.forest.inPreorderLoops = (before ++ a :: ws) ++ (b :: after) := by simp [ht]
  have hwb : Precedes f.forest.inPreorderLoops w b := by
    rw [ahead]
    exact precedes_append (by simp [hw]) (List.mem_cons_self ..)
  have hwl := (mem_inPreorderLoops hf he).1 haw.right_mem
  have hpar := parent?_eq_of_between hf he ha hb hwl h.parent (hmap haw) (hmap hwb) hdepth
  exact h.between w hwl hpar ⟨hmap haw, hmap hwb⟩

theorem NextSibling.scan_eq (hnext : f.forest.NextSibling a b) (hf : f.InArena) (he : f.entry? = some e)
    (ha : a ∈ f.forest.loops) (hb : b ∈ f.forest.loops) : ∃ before after,
      f.forest.inPreorderLoops = before ++ b :: after ∧ ∀ config : FusionConfig,
        Pass.scan config f = (do
          Inquiry.forget
          let scan ← Pass.walk (Pass.checker config f) ⟨0, [], none⟩ [] before
          if scan.plan?.isSome then return scan
          else
            Pass.examine (Pass.checker config f) scan a b fun scan =>
              Pass.walk (Pass.checker config f) scan
                (Pass.seenAfter (Pass.checker config f) (before ++ [b]) []) after) := by
  obtain ⟨before, ws, after, hsplit, hdepth⟩ := hnext.exists_split hf he ha hb
  refine ⟨before ++ a :: ws, after, hsplit, fun config => ?_⟩
  have hda : f.forest.depth a.id = f.forest.depth b.id := by
    rw [LoopForest.depth_of_parent hf he ha, LoopForest.depth_of_parent hf he hb, hnext.parent]
  have hscan : Pass.scan config f = (do
      Inquiry.forget
      Pass.walk (Pass.checker config f) ⟨0, [], none⟩ [] f.forest.inPreorderLoops) := rfl
  rw [hscan, hsplit]
  refine bind_congr fun _ => ?_
  rw [Pass.walk_append rfl]
  refine bind_congr fun scan => ?_
  split
  · rfl
  · rw [Pass.seenAfter_snoc, Pass.walk_paired]
    have hlook := @Pass.lookup_seenAfter (Pass.checker config f) [] before ws a _ hda hdepth
    exact Option.filter_eq_some_iff.2 ⟨hlook, decide_eq_true hnext.parent⟩

end LoopForest

namespace Checker

variable {f : Func} {e : BlockId} {c : Checker} {a b : Loop}

/-- What is visited between the headers of an accepted pair was met inside the first loop, or would
be the block between the two. -/
theorem Accepts.nextSibling (h : c.Accepts f e a b) : f.forest.NextSibling a b := by
  have hf := h.inArena
  have he := h.entry
  have horder : ∀ {l m}, l ∈ f.forest.loops → m ∈ f.forest.loops → l.parent? = m.parent? →
      (Precedes f.forest.preorder l.id m.id ↔
        Precedes (Cfg.ofFunc f).order l.header m.header) := fun hl hm hpar =>
    LoopForest.precedes_siblings_iff hf he hl hm hpar
  refine ⟨h.siblings, ?_, ?_⟩
  · rw [horder h.first h.second h.siblings]
    exact Cfg.precedes_of_dom hf he h.dom h.headers_ne
  · rintro z hz hpar ⟨haz, hzb⟩
    rw [horder h.first hz (h.siblings.trans hpar.symm)] at haz
    rw [horder hz h.second hpar] at hzb
    obtain ⟨n, han, hw⟩ := Cfg.exists_way_between hf he h.dom haz hzb
    obtain ⟨preA, mA, mid, mB, exitB, ga, gb⟩ := h.exists_gates
    rcases (ga.branch n).1 han with rfl | rfl
    · have hin := ga.stay ga.bodyHead_in (hw.mono fun _ hx => hx.1)
      have hne : a ≠ z := fun h => haz.ne (Cfg.nodup_order hf he) (congrArg Loop.header h)
      exact LoopForest.disjoint_siblings hf he h.first hz (h.siblings.trans hpar.symm) hne hin
        (LoopForest.headed hf he hz)
    · rcases hw.cases_head with hzn | ⟨y, hy, hw⟩
      · obtain ⟨l, hl, -⟩ := LoopForest.headed hf he hz
        rw [← hzn] at hl
        obtain rfl := h.alone ga gb hl.dom.1 hl.edge
        exact ga.exit_ne ((h.dom_mid ga gb).antisymm hl.dom).symm
      · exact hw.first.2 ((gb.leads y).1 hy)

/-- Whatever engine and oracle a checker uses: of a pair that it accepts, the second loop follows
the first among their siblings, and the driver examines the two together when it comes to the
second, unless it has found a plan before. -/
theorem nextSibling_of_verdict (hv : f.verify = .ok ()) (hc : c.facts = .ofFunc f)
    (ha : a ∈ f.forest.loops) (hb : b ∈ f.forest.loops) {s : Session}
    (h : ((c.checkCandidate a b).verdict s).1 = .ok ()) :
    f.forest.NextSibling a b ∧ ∃ before after,
      f.forest.inPreorderLoops = before ++ b :: after ∧ ∀ config : FusionConfig,
        Pass.scan config f = (do
          Inquiry.forget
          let scan ← Pass.walk (Pass.checker config f) ⟨0, [], none⟩ [] before
          if scan.plan?.isSome then return scan
          else
            Pass.examine (Pass.checker config f) scan a b fun scan =>
              Pass.walk (Pass.checker config f) scan
                (Pass.seenAfter (Pass.checker config f) (before ++ [b]) []) after) := by
  obtain ⟨e, hw⟩ := Func.wellFormed_of_verify hv
  have hacc : c.Accepts f e a b := ⟨hw, hc, ha, hb, s, _, verdict_eq_ok.1 (Prod.ext h rfl)⟩
  exact ⟨hacc.nextSibling, hacc.nextSibling.scan_eq hacc.inArena hacc.entry ha hb⟩

theorem nextSibling_of_verdict_twoLoops : Func.twoLoops.verify = .ok () ∧
    Func.twoLoops.forest.NextSibling .first .second :=
  ⟨Func.verify_twoLoops, (nextSibling_of_verdict Func.verify_twoLoops rfl Loop.first_mem
    Loop.second_mem FusionPlan.legal_twoLoops).1⟩

end Checker

end LoopFusion
