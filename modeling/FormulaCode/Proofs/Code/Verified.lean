import FormulaCode.Proofs.Code.Chains
import FormulaCode.Proofs.Code.Depth

namespace FormulaCode.Code

variable {code : Code}

section Valid

variable {place next : Nat} {jump : Instr} {op : Op} (hjump : code.instr? place = some jump)
  (hop : jump.op.withTarget? next = some op)

include hjump hop

-- A branch that gets a target has no defect.
theorem instrDefect?_setOp {index : Nat} {instr : Instr} (hinstr : code.instr? index = some instr)
    (h : code.instrDefect? index instr = none) :
    (code.setOp place op).instrDefect? index (instr.setOpAt place op index) = none := by
  obtain ⟨htarget, -, -, -, -, -, -, htext⟩ := Op.withTarget?_eq_some hop
  unfold Instr.setOpAt
  by_cases he : index = place
  · subst he
    obtain rfl := Option.some.inj (hinstr.symm.trans hjump)
    rw [if_pos rfl]
    simp only [instrDefect?, textAt?_setOp op index hjump, htext, htarget] at h ⊢
    split at h
    · cases h
    rename_i hends
    split at h
    · cases h
    rename_i hsingle
    rw [if_neg hends, if_neg hsingle, if_neg (by simp)]
  · rw [if_neg he]
    simpa only [instrDefect?, textAt?_setOp op index hjump] using h

theorem instructionsFrom_setOp {index : Nat} {instructions : List (Nat × Instr)}
    (h : code.instructionsFrom index = .ok instructions) :
    (code.setOp place op).instructionsFrom index =
      .ok (instructions.map fun item => (item.1, item.2.setOpAt place op item.1)) := by
  induction instructions generalizing index with
  | nil =>
      by_cases hlt : index < code.size
      · obtain ⟨head, rest, -, -, -, -, -, hcons⟩ := instructionsFrom_of_lt h hlt
        cases hcons
      · rw [instructionsFrom, size_setOp, if_neg hlt]
        rfl
  | cons item items ih =>
      by_cases hlt : index < code.size
      · obtain ⟨head, rest, hhead, hpos, hfits, hdefect, hrest, hcons⟩ :=
          instructionsFrom_of_lt h hlt
        cases hcons
        have hnew : (code.setOp place op).instr? index = some (head.setOpAt place op index) := by
          rw [instr?_setOp_eq, hhead, Option.map_some]
        apply instructionsFrom_cons hnew
        · rwa [Instr.len_setOpAt]
        · rwa [Instr.len_setOpAt, size_setOp]
        · exact instrDefect?_setOp hjump hop hhead hdefect
        · rw [Instr.len_setOpAt]
          exact ih hrest
      · rw [instructionsFrom, if_neg hlt] at h
        cases h

end Valid

-- A shortcut leads to an instruction of the walk, as the passed jump did.
theorem validate_redirect (h : code.validate = .ok ()) {index next : Nat}
    (hnext : code.shortcut? index = some next) : (code.redirect index next).validate = .ok () := by
  obtain ⟨jump, target, landing, op, hjump, htarget, hlanding, hthrough, -, -, hop, heq⟩ :=
    shortcut?_eq_some hnext
  obtain ⟨hinstructions, hstray, hlast⟩ := validate_eq_ok_iff.mp h
  obtain ⟨hopTarget, -, hjumpBranch, -⟩ := Op.withTarget?_eq_some hop
  have hwalk : (code.setOp index op).walk =
      code.walk.map fun item => (item.1, item.2.setOpAt index op item.1) := walkFrom_setOp ..
  have hkept : ∀ place, (∃ instr, (place, instr) ∈ code.walk) →
      ∃ instr, (place, instr) ∈ code.walk.map fun item => (item.1, item.2.setOpAt index op item.1) := by
    rintro place ⟨instr, hmem⟩
    exact ⟨_, List.mem_map_of_mem hmem⟩
  rw [heq, validate_eq_ok_iff, hwalk]
  refine ⟨instructionsFrom_setOp hjump hop hinstructions, strayBranch?_eq_none ?_, ?_⟩
  · intro other instr place hmem hplace
    obtain ⟨⟨other', old⟩, hold, hitem⟩ := List.mem_map.mp hmem
    cases hitem
    apply hkept
    by_cases he : other' = index
    · subst he
      obtain rfl := Option.some.inj (hjump.symm.trans (instr?_of_mem_walk hold).1)
      obtain ⟨found, hfound⟩ := mem_of_strayBranch? hstray hold htarget
      obtain rfl := Option.some.inj (hlanding.symm.trans (instr?_of_mem_walk hfound).1)
      rw [Instr.setOpAt, if_pos rfl, hopTarget, Option.some.injEq] at hplace
      subst hplace
      exact mem_of_strayBranch? hstray hfound (Op.threadThrough?_eq_some hthrough).1
    · rw [Instr.setOpAt, if_neg he] at hplace
      exact mem_of_strayBranch? hstray hold hplace
  · -- The last instruction returns, so it is not the branch.
    obtain ⟨⟨last, ret⟩, hret, hreturns⟩ := Option.map_eq_some_iff.mp hlast
    have hne : last ≠ index := by
      rintro rfl
      have hmem := List.mem_of_getLast? hret
      obtain rfl := Option.some.inj (hjump.symm.trans (instr?_of_mem_walk hmem).1)
      rw [hreturns] at hjumpBranch
      cases hjumpBranch
    rw [List.getLast?_map, hret, Option.map_some, Option.map_some, Instr.setOpAt, if_neg hne,
      hreturns]

section Paths

variable (hbalanced : code.Balanced) {index next : Nat} (hnext : code.shortcut? index = some next)

include hbalanced hnext

-- A path that takes the shortcut is one that passes the jump, which leaves the stack alone.
theorem reaches_of_redirect {place depth : Nat}
    (h : (code.redirect index next).Reaches place depth) : code.Reaches place depth := by
  obtain ⟨jump, target, landing, op, hjump, htarget, hlanding, hthrough, -, -, hop, heq⟩ :=
    shortcut?_eq_some hnext
  obtain ⟨hopTarget, -, -, htakes, hleaves, hcarries, hfalls, -⟩ := Op.withTarget?_eq_some hop
  have hpops : op.pops = jump.op.pops := by
    rw [← Op.length_takes, htakes, Op.length_takes]
  have hpushes : op.pushes = jump.op.pushes := by
    rw [← Op.length_leaves, hleaves, Op.length_leaves]
  rw [heq] at h
  induction h with
  | start => exact .start
  | @next here depth instr path hinstr hpop hfall ih =>
      obtain ⟨old, hold, hlen, -, hne, hself⟩ := instr?_setOp hinstr
      by_cases he : here = index
      · subst he
        obtain rfl := Option.some.inj (hjump.symm.trans hold)
        rw [hself rfl] at hpop hfall ⊢
        rw [hlen, hpops, hpushes]
        exact .next ih hjump (hpops ▸ hpop) (hfalls ▸ hfall)
      · obtain rfl := hne he
        exact .next ih hold hpop hfall
  | @jump here depth there instr path hinstr hpop hthere ih =>
      obtain ⟨old, hold, hlen, -, hne, hself⟩ := instr?_setOp hinstr
      by_cases he : here = index
      · subst he
        obtain rfl := Option.some.inj (hjump.symm.trans hold)
        rw [hself rfl] at hpop hthere ⊢
        rw [hopTarget, Option.some.injEq] at hthere
        subst hthere
        obtain ⟨hlandingTarget, hkeeps⟩ := Op.threadThrough?_eq_some hthrough
        have hfirst : code.Reaches target (depth - jump.op.pops + jump.op.carries.length) :=
          .jump ih hjump (hpops ▸ hpop) htarget
        obtain ⟨found, hfound, henough, -⟩ := hbalanced.instr _ _ hfirst
        obtain rfl := Option.some.inj (hlanding.symm.trans hfound)
        have hsecond := Reaches.jump hfirst hlanding henough hlandingTarget
        rw [hkeeps, Op.length_takes, Nat.sub_add_cancel henough] at hsecond
        rwa [hpops, hcarries]
      · obtain rfl := hne he
        exact .jump ih hold hpop hthere

theorem Balanced.redirect : (code.redirect index next).Balanced := by
  obtain ⟨jump, target, landing, op, hjump, htarget, hlanding, hthrough, -, -, hop, heq⟩ :=
    shortcut?_eq_some hnext
  obtain ⟨hopTarget, hopBranch, hjumpBranch, htakes, -⟩ := Op.withTarget?_eq_some hop
  constructor
  · intro place depth hreaches
    have hpath := reaches_of_redirect hbalanced hnext hreaches
    obtain ⟨instr, hinstr, hpops, hforward, hret⟩ := hbalanced.instr place depth hpath
    rw [heq]
    by_cases he : place = index
    · subst he
      obtain rfl := Option.some.inj (hjump.symm.trans hinstr)
      refine ⟨{ jump with op }, instr?_setOp_self op hjump, ?_, ?_, ?_⟩
      · rwa [← Op.length_takes, htakes, Op.length_takes]
      · intro _
        obtain ⟨target', htarget', hfirst⟩ := hforward hjumpBranch
        obtain rfl := Option.some.inj (htarget.symm.trans htarget')
        obtain ⟨found, hfound, -, hahead, -⟩ := hbalanced.instr _ _ (.jump hpath hjump hpops htarget)
        obtain rfl := Option.some.inj (hlanding.symm.trans hfound)
        have hlandingTarget := (Op.threadThrough?_eq_some hthrough).1
        obtain ⟨next', hnext', hsecond⟩ := hahead (Op.isBranch_of_target? hlandingTarget)
        obtain rfl := Option.some.inj (hlandingTarget.symm.trans hnext')
        exact ⟨next, hopTarget, by omega⟩
      · intro hreturns
        simp only at hreturns
        rw [hreturns] at hopBranch
        cases hopBranch
    · exact ⟨instr, by rw [instr?_setOp_of_ne code op he, hinstr], hpops, hforward, hret⟩
  · intro place depth other hreaches hother
    exact hbalanced.joins place depth other (reaches_of_redirect hbalanced hnext hreaches)
      (reaches_of_redirect hbalanced hnext hother)

end Paths

-- What threading keeps of code that has been checked. No new path comes about.
theorem verified_thread (hvalid : code.validate = .ok ()) (hbalanced : code.Balanced) :
    code.thread.1.validate = .ok () ∧ code.thread.1.Balanced ∧
      ∀ index depth, code.thread.1.Reaches index depth → code.Reaches index depth := by
  refine thread_induction (motive := fun threaded => threaded.validate = .ok () ∧
    threaded.Balanced ∧ ∀ index depth, threaded.Reaches index depth → code.Reaches index depth)
    ?_ code ⟨hvalid, hbalanced, fun _ _ => id⟩
  rintro threaded index next ⟨hvalid, hbalanced, hpaths⟩ hnext
  exact ⟨validate_redirect hvalid hnext, hbalanced.redirect hnext, fun place depth hreaches =>
    hpaths place depth (reaches_of_redirect hbalanced hnext hreaches)⟩

-- Threading ends on code whose branches lead ahead, and both checks still pass. The stack needs
-- no more room than it did.
theorem thread_keeps_verification (hahead : code.Ahead) (hvalid : code.validate = .ok ())
    {depth : Nat} (hdepth : code.maxDepth = .ok depth) :
    Threads code code.thread ∧ code.thread.1.validate = .ok () ∧
      ∃ depth', code.thread.1.maxDepth = .ok depth' ∧ depth' ≤ depth := by
  have hclosed := closed_of_validate hvalid
  have hbalanced := hclosed.exists_maxDepth_iff.mp ⟨depth, hdepth⟩
  obtain ⟨hvalid', hbalanced', hpaths⟩ := verified_thread hvalid hbalanced
  have hclosed' := closed_of_validate hvalid'
  obtain ⟨depth', hdepth'⟩ := hclosed'.exists_maxDepth_iff.mpr hbalanced'
  obtain ⟨⟨index, hreaches⟩, -⟩ := hclosed'.greatest_maxDepth hdepth'
  have hle := (hclosed.greatest_maxDepth hdepth).2 index depth' (hpaths index depth' hreaches)
  exact ⟨hahead.threads_thread, hvalid', depth', hdepth', hle⟩

-- The sum is reached only where the same condition has failed before.
def retested : Code :=
  ⟨#[.instr ⟨.pushNumber ⟨0⟩, 1, 0⟩, .instr ⟨.branchIfFalse ⟨some 4, false⟩, 1, 1⟩,
    .instr ⟨.pushNumber ⟨1⟩, 1, 2⟩, .instr ⟨.goto (some 10), 1, 3⟩,
    .instr ⟨.branchIfFalse ⟨some 10, false⟩, 1, 4⟩, .instr ⟨.pushNumber ⟨2⟩, 1, 5⟩,
    .instr ⟨.pushNumber ⟨3⟩, 1, 6⟩, .instr ⟨.pushNumber ⟨4⟩, 1, 7⟩,
    .instr ⟨.operator .add, 1, 8⟩, .instr ⟨.operator .add, 1, 9⟩, .instr ⟨.ret, 1, 10⟩]⟩

theorem thread_keeps_verification_retested :
    retested.Ahead ∧ retested.validate = .ok () ∧ retested.maxDepth = .ok 3 ∧
      retested.thread.1.maxDepth = .ok 1 ∧ Threads retested retested.thread ∧
      retested.thread.1.validate = .ok () ∧
      ∃ depth', retested.thread.1.maxDepth = .ok depth' ∧ depth' ≤ 3 := by
  have hahead : retested.Ahead := by decide +kernel
  have hvalid : retested.validate = .ok () := by decide +kernel
  have hdepth : retested.maxDepth = .ok 3 := by decide +kernel
  exact ⟨hahead, hvalid, hdepth, by decide +kernel,
    thread_keeps_verification hahead hvalid hdepth⟩

end FormulaCode.Code
