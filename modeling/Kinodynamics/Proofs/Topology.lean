/-
# Robots stay well formed

A robot grows by links and joints that are added one after another, and an addition may be
refused. What every addition keeps is said once (`Robot.IsSound`): an id is a place, the tables
of names are in step with the lists, and a joint connects two different links that exist. From it
follows all that looking up promises (`Robot.IsWired`): a name leads to the one link or joint that
has it, each joint is listed at its two links and nowhere else, in the order of the ids, and the
two links of a joint are each other's opposites. An addition that is refused leaves the robot
alone, and one that is not changes nothing that could be looked up before (`Robot.Keeps`).

Key definitions: `Registers`, `Robot.Built`, `Robot.IsSound`, `Robot.IsWired`, `Robot.Keeps`,
`Robot.Addition`, `Robot.tryAll`.
Key theorems: `Robot.addLink_eq_ok_iff`, `Robot.addJoint_eq_ok_iff`, `Robot.Built.isSound`,
`Robot.IsSound.isWired`, `Robot.isWired_tryAll`.
-/
import Kinodynamics.Proofs.Elimination.Step
import Kinodynamics.Proofs.Reals
import Kinodynamics.Robot

namespace Kinodynamics

/-! ### Sides of a joint -/

namespace Joint

variable {α : Type}

/-- The link is the parent or the child. -/
def Touches (j : Joint α) (link : LinkId) : Prop := link = j.parent ∨ link = j.child

theorem touches_link (j : Joint α) : ∀ side, j.Touches (j.link side)
  | .parent => Or.inl rfl
  | .child => Or.inr rfl

theorem touches_iff {j : Joint α} {link : LinkId} : j.Touches link ↔ ∃ side, j.link side = link := by
  constructor
  · rintro (rfl | rfl)
    · exact ⟨.parent, rfl⟩
    · exact ⟨.child, rfl⟩
  · rintro ⟨side, rfl⟩
    exact j.touches_link side

/-- The sides of a joint between two links stand for the links. -/
theorem side?_eq_some_iff {j : Joint α} (hne : j.parent ≠ j.child) {link : LinkId} {side : Side} :
    j.side? link = some side ↔ j.link side = link := by
  unfold side?
  split_ifs with hchild hparent
  · subst hchild
    cases side <;> simp [Joint.link, hne]
  · subst hparent
    cases side <;> simp [Joint.link, hne.symm]
  · cases side
    · simpa [Joint.link] using Ne.symm hparent
    · simpa [Joint.link] using Ne.symm hchild

theorem side?_eq_none_iff {j : Joint α} {link : LinkId} : j.side? link = none ↔ ¬j.Touches link := by
  unfold side? Touches
  split_ifs with hchild hparent <;> simp_all

end Joint

/-! ### Lists that grow at their end -/

theorem List.getElem?_append_of_eq_some {β : Type} {xs : List β} {i : ℕ} {x : β} (h : xs[i]? = some x)
    (ys : List β) : (xs ++ ys)[i]? = some x := by
  rw [List.getElem?_append_left (List.getElem?_eq_some_iff.mp h).1, h]

theorem List.getElem?_concat_eq_some {β : Type} {xs : List β} {i : ℕ} {x y : β}
    (h : (xs ++ [y])[i]? = some x) : xs[i]? = some x ∨ i = xs.length ∧ x = y := by
  rw [List.getElem?_append] at h
  split_ifs at h with hlt
  · exact Or.inl h
  · rw [List.getElem?_singleton] at h
    split_ifs at h with hzero
    exact Or.inr ⟨by omega, (Option.some.inj h).symm⟩

/-! ### Tables of names -/

section Registers

variable {β ι : Type} {index : ι → ℕ} {name : β → String} {ids : List (String × ι)} {xs : List β}

/-- The table is in step with the list: it leads from a name to an id just if what stands at the
place of the id has the name. -/
def Registers (index : ι → ℕ) (name : β → String) (ids : List (String × ι)) (xs : List β) : Prop :=
  ∀ n id, ids.lookup n = some id ↔ ∃ x, xs[index id]? = some x ∧ name x = n

theorem registers_nil : Registers index name [] [] := fun n id => by simp

theorem lookup_cons_eq_ite (n : String) (id : ι) (ids : List (String × ι)) (m : String) :
    ((n, id) :: ids).lookup m = if m = n then some id else ids.lookup m := by
  rw [List.lookup_cons]
  split_ifs with h
  · rw [beq_iff_eq.mpr h]
  · rw [beq_eq_false_iff_ne.mpr h]

/-- A new name hides no name. -/
theorem lookup_cons_of_eq_some {n m : String} {id : ι} (hnew : ids.lookup n = none)
    (h : ids.lookup m = some id) (newId : ι) : ((n, newId) :: ids).lookup m = some id := by
  have hne : m ≠ n := fun heq => by
    rw [heq, hnew] at h
    cases h
  rw [lookup_cons_eq_ite, if_neg hne, h]

/-- **The table and the list grow in step**, with a name that is new. -/
theorem Registers.concat (h : Registers index name ids xs) (hindex : Function.Injective index)
    {newName : String} (hnew : ids.lookup newName = none) {x : β} (hx : name x = newName) {id : ι}
    (hid : index id = xs.length) : Registers index name ((newName, id) :: ids) (xs ++ [x]) := by
  subst hx
  intro n id'
  rw [lookup_cons_eq_ite]
  split_ifs with hn
  · -- the new name, which no item had
    subst hn
    constructor
    · rintro ⟨⟩
      exact ⟨x, by rw [hid, List.getElem?_concat_length], rfl⟩
    · rintro ⟨y, hy, hname⟩
      obtain hold | ⟨hlast, rfl⟩ := List.getElem?_concat_eq_some hy
      · rw [(h _ _).mpr ⟨y, hold, hname⟩] at hnew
        cases hnew
      · rw [hindex (hid.trans hlast.symm)]
  · -- another name, which the new item does not have
    rw [h n id']
    constructor
    · rintro ⟨y, hy, hname⟩
      exact ⟨y, List.getElem?_append_of_eq_some hy _, hname⟩
    · rintro ⟨y, hy, hname⟩
      obtain hold | ⟨-, rfl⟩ := List.getElem?_concat_eq_some hy
      · exact ⟨y, hold, hname⟩
      · exact absurd hname.symm hn

/-- Looking up a name in the table and then the id in the list finds what has the name. -/
theorem Registers.exists_lookup_iff (h : Registers index name ids xs) (hindex : Function.Surjective index)
    {n : String} {x : β} :
    (∃ id, ids.lookup n = some id ∧ xs[index id]? = some x) ↔ x ∈ xs ∧ name x = n := by
  constructor
  · rintro ⟨id, hid, hx⟩
    obtain ⟨y, hy, hname⟩ := (h n id).mp hid
    rw [hx] at hy
    cases hy
    exact ⟨List.mem_of_getElem? hx, hname⟩
  · rintro ⟨hmem, hname⟩
    obtain ⟨i, hi⟩ := List.getElem?_of_mem hmem
    obtain ⟨id, rfl⟩ := hindex i
    exact ⟨id, (h n id).mpr ⟨x, hi, hname⟩, hi⟩

end Registers

theorem LinkId.index_bijective : Function.Bijective LinkId.index :=
  ⟨fun _ _ => LinkId.ext, fun i => ⟨⟨i⟩, rfl⟩⟩

theorem JointId.index_bijective : Function.Bijective JointId.index :=
  ⟨fun _ _ => JointId.ext, fun i => ⟨⟨i⟩, rfl⟩⟩

namespace Robot

variable {α : Type} {r r' : Robot α}

/-! ### Looking up -/

theorem link_eq_ok_iff {id : LinkId} {l : Link α} :
    r.link id = .ok l ↔ r.links[id.index]? = some l := by
  unfold link
  split <;> simp_all

theorem joint_eq_ok_iff {id : JointId} {j : Joint α} :
    r.joint id = .ok j ↔ r.joints[id.index]? = some j := by
  unfold joint
  split <;> simp_all

theorem linkNamed_eq_ok_iff {name : String} {l : Link α} :
    r.linkNamed name = .ok l ↔ ∃ id, r.linkIds.lookup name = some id ∧ r.link id = .ok l := by
  unfold linkNamed
  cases r.linkIds.lookup name <;> simp

theorem jointNamed_eq_ok_iff {name : String} {j : Joint α} :
    r.jointNamed name = .ok j ↔ ∃ id, r.jointIds.lookup name = some id ∧ r.joint id = .ok j := by
  unfold jointNamed
  cases r.jointIds.lookup name <;> simp

theorem mem_jointsAt_iff {link : LinkId} {j : Joint α} :
    j ∈ r.jointsAt link ↔ j ∈ r.joints ∧ j.Touches link := by
  simp [jointsAt, Joint.Touches]

theorem opposite_eq {id : JointId} {j : Joint α} (hj : r.joint id = .ok j) (link : LinkId) :
    r.opposite id link = match j.side? link with
      | some side => .ok (j.link side.other)
      | none => .error (.notAdjacent link j.name) := by
  unfold opposite side
  rw [hj]
  cases hside : j.side? link <;> simp [hside, bind, Except.bind, pure, Except.pure]

/-! ### What every addition keeps -/

/-- Ids are places, the tables of names are in step with the lists, and a joint connects two
different links that exist. -/
structure IsSound (r : Robot α) : Prop where
  link_id : ∀ {i : ℕ} {l : Link α}, r.links[i]? = some l → l.id = ⟨i⟩
  joint_id : ∀ {i : ℕ} {j : Joint α}, r.joints[i]? = some j → j.id = ⟨i⟩
  registers_links : Registers LinkId.index Link.name r.linkIds r.links
  registers_joints : Registers JointId.index Joint.name r.jointIds r.joints
  parent_ne_child : ∀ j ∈ r.joints, j.parent ≠ j.child
  exists_link : ∀ j ∈ r.joints, ∀ side, ∃ l, r.link (j.link side) = .ok l

theorem isSound_empty : (empty : Robot α).IsSound where
  link_id h := by cases h
  joint_id h := by cases h
  registers_links := registers_nil
  registers_joints := registers_nil
  parent_ne_child j hj := by cases hj
  exists_link j hj := by cases hj

/-! ### What looking up promises -/

/-- What is found by name, at a link and across a joint. -/
structure IsWired (r : Robot α) : Prop where
  /-- A name leads to the link that has it, and only the name of a link leads anywhere. -/
  linkNamed_iff : ∀ name l, r.linkNamed name = .ok l ↔ l ∈ r.links ∧ l.name = name
  jointNamed_iff : ∀ name j, r.jointNamed name = .ok j ↔ j ∈ r.joints ∧ j.name = name
  /-- A link lists the joints that touch it, in the order of their ids. -/
  mem_jointsAt_iff : ∀ link j, j ∈ r.jointsAt link ↔ j ∈ r.joints ∧ j.Touches link
  pairwise_jointsAt : ∀ link, (r.jointsAt link).Pairwise fun j j' => j.id.index < j'.id.index
  /-- A joint is listed at two links. -/
  ncard_jointsAt : ∀ j ∈ r.joints,
    {link | (∃ l, r.link link = .ok l) ∧ j ∈ r.jointsAt link}.ncard = 2
  /-- Across a joint is its other link, and back is the link itself. -/
  opposite_link : ∀ id j, r.joint id = .ok j → ∀ side,
    r.opposite id (j.link side) = .ok (j.link side.other)
  opposite_opposite : ∀ id link link', r.opposite id link = .ok link' → r.opposite id link' = .ok link
  /-- There is nothing across a joint from a link that it does not touch. -/
  opposite_of_not_touches : ∀ id j, r.joint id = .ok j → ∀ link, ¬j.Touches link →
    r.opposite id link = .error (.notAdjacent link j.name)

namespace IsSound

/-- The joints stand in the order of their ids. -/
theorem pairwise_joints (hr : r.IsSound) : r.joints.Pairwise fun j j' => j.id.index < j'.id.index := by
  rw [List.pairwise_iff_getElem]
  intro i k hi hk hlt
  rwa [hr.joint_id (List.getElem?_eq_getElem hi), hr.joint_id (List.getElem?_eq_getElem hk)]

theorem side?_link (hr : r.IsSound) {id : JointId} {j : Joint α} (hj : r.joint id = .ok j) (side : Side) :
    j.side? (j.link side) = some side :=
  (Joint.side?_eq_some_iff (hr.parent_ne_child j (List.mem_of_getElem? (joint_eq_ok_iff.mp hj)))).mpr rfl

theorem opposite_link (hr : r.IsSound) {id : JointId} {j : Joint α} (hj : r.joint id = .ok j)
    (side : Side) : r.opposite id (j.link side) = .ok (j.link side.other) := by
  rw [opposite_eq hj, hr.side?_link hj]

theorem opposite_of_not_touches {id : JointId} {j : Joint α} (hj : r.joint id = .ok j) {link : LinkId}
    (h : ¬j.Touches link) : r.opposite id link = .error (.notAdjacent link j.name) := by
  rw [opposite_eq hj, Joint.side?_eq_none_iff.mpr h]

/-- The links at which a joint is listed are its two. -/
theorem setOf_mem_jointsAt (hr : r.IsSound) {j : Joint α} (hj : j ∈ r.joints) :
    {link | (∃ l, r.link link = .ok l) ∧ j ∈ r.jointsAt link} = {j.parent, j.child} := by
  ext link
  rw [Set.mem_ofPred_eq, mem_jointsAt_iff, Set.mem_insert_iff, Set.mem_singleton_iff]
  constructor
  · rintro ⟨-, -, htouches⟩
    exact htouches
  · intro htouches
    obtain ⟨side, rfl⟩ := Joint.touches_iff.mp htouches
    exact ⟨hr.exists_link j hj side, hj, htouches⟩

/-- **In a sound robot all looking up keeps its promises.** -/
theorem isWired (hr : r.IsSound) : r.IsWired where
  linkNamed_iff name l := by
    simp only [linkNamed_eq_ok_iff, link_eq_ok_iff]
    exact hr.registers_links.exists_lookup_iff LinkId.index_bijective.surjective
  jointNamed_iff name j := by
    simp only [jointNamed_eq_ok_iff, joint_eq_ok_iff]
    exact hr.registers_joints.exists_lookup_iff JointId.index_bijective.surjective
  mem_jointsAt_iff link j := mem_jointsAt_iff
  pairwise_jointsAt link := hr.pairwise_joints.filter _
  ncard_jointsAt j hj := by
    rw [hr.setOf_mem_jointsAt hj, Set.ncard_pair (hr.parent_ne_child j hj)]
  opposite_link id j hj side := hr.opposite_link hj side
  opposite_opposite id link link' h := by
    cases hj : r.joint id with
    | error e => rw [opposite, side, hj] at h; cases h
    | ok j =>
      by_cases htouches : j.Touches link
      · obtain ⟨side, rfl⟩ := Joint.touches_iff.mp htouches
        rw [hr.opposite_link hj] at h
        cases h
        rw [hr.opposite_link hj, Side.other_other]
      · rw [opposite_of_not_touches hj htouches] at h
        cases h
  opposite_of_not_touches id j hj link := opposite_of_not_touches hj

end IsSound

/-- All that could be looked up is still there. -/
structure Keeps (r r' : Robot α) : Prop where
  link : ∀ id l, r.link id = .ok l → r'.link id = .ok l
  joint : ∀ id j, r.joint id = .ok j → r'.joint id = .ok j
  linkNamed : ∀ name l, r.linkNamed name = .ok l → r'.linkNamed name = .ok l
  jointNamed : ∀ name j, r.jointNamed name = .ok j → r'.jointNamed name = .ok j

/-! ### One more link -/

/-- **A link is added just if its name is new.** Its id is its place. -/
theorem addLink_eq_ok_iff {name : String} {mass : α} {inertia : Mat3 α} {worldPose : Pose α}
    {id : LinkId} : r.addLink name mass inertia worldPose = .ok (r', id) ↔
      r.linkIds.lookup name = none ∧ id = ⟨r.links.length⟩ ∧
        r' = ⟨r.links ++ [⟨id, name, mass, inertia, worldPose⟩], r.joints, (name, id) :: r.linkIds,
          r.jointIds⟩ := by
  rw [addLink]
  split_ifs with htaken
  · exact iff_of_false (fun h => by cases h) fun h => by simp [h.1] at htaken
  · constructor
    · intro h
      cases h
      exact ⟨Option.not_isSome_iff_eq_none.mp htaken, rfl, rfl⟩
    · rintro ⟨-, rfl, rfl⟩
      rfl

theorem IsSound.addLink {name : String} {mass : α} {inertia : Mat3 α} {worldPose : Pose α} {id : LinkId}
    (hr : r.IsSound) (h : r.addLink name mass inertia worldPose = .ok (r', id)) : r'.IsSound := by
  obtain ⟨hnew, rfl, rfl⟩ := addLink_eq_ok_iff.mp h
  exact {
    link_id := fun hget => by
      obtain hold | ⟨rfl, rfl⟩ := List.getElem?_concat_eq_some hget
      · exact hr.link_id hold
      · rfl
    joint_id := hr.joint_id
    registers_links := hr.registers_links.concat LinkId.index_bijective.injective hnew rfl rfl
    registers_joints := hr.registers_joints
    parent_ne_child := hr.parent_ne_child
    exists_link := fun j hj side => by
      obtain ⟨l, hl⟩ := hr.exists_link j hj side
      exact ⟨l, link_eq_ok_iff.mpr (List.getElem?_append_of_eq_some (link_eq_ok_iff.mp hl) _)⟩ }

theorem keeps_addLink {name : String} {mass : α} {inertia : Mat3 α} {worldPose : Pose α} {id : LinkId}
    (h : r.addLink name mass inertia worldPose = .ok (r', id)) : r.Keeps r' := by
  obtain ⟨hnew, rfl, hr'⟩ := addLink_eq_ok_iff.mp h
  have hlink : ∀ id l, r.link id = .ok l → r'.link id = .ok l := fun id l hl => by
    rw [hr', link_eq_ok_iff]
    exact List.getElem?_append_of_eq_some (link_eq_ok_iff.mp hl) _
  subst hr'
  exact {
    link := hlink
    joint := fun _ _ hj => hj
    linkNamed := fun n l hl => by
      obtain ⟨id, hid, hl⟩ := linkNamed_eq_ok_iff.mp hl
      exact linkNamed_eq_ok_iff.mpr ⟨id, lookup_cons_of_eq_some hnew hid _, hlink id l hl⟩
    jointNamed := fun _ _ hj => hj }

/-! ### One more joint -/

variable [Scalar α]

/-- **A joint is added just if its name is new and it connects two different links that
exist.** Its id is its place. -/
theorem addJoint_eq_ok_iff {name : String} {worldPose : Pose α} {parent child : LinkId}
    {params : JointSettings α} {kind : JointMotion α} {id : JointId} :
    r.addJoint name worldPose parent child params kind = .ok (r', id) ↔
      r.jointIds.lookup name = none ∧ parent ≠ child ∧ id = ⟨r.joints.length⟩ ∧
        ∃ p c, r.link parent = .ok p ∧ r.link child = .ok c ∧
          r' = ⟨r.links, r.joints ++ [.assemble id name worldPose p c params kind], r.linkIds,
            (name, id) :: r.jointIds⟩ := by
  rw [← Option.not_isSome_iff_eq_none]
  by_cases htaken : (r.jointIds.lookup name).isSome
  · have hfails : r.addJoint name worldPose parent child params kind = .error (.duplicateJoint name) := by
      rw [addJoint, if_pos htaken]
      rfl
    rw [hfails]
    exact iff_of_false (fun h => by cases h) fun h => h.1 htaken
  by_cases hself : parent = child
  · have hfails : r.addJoint name worldPose parent child params kind =
        .error (.selfConnection name parent) := by
      rw [addJoint, if_neg htaken, if_pos hself]
      rfl
    rw [hfails]
    exact iff_of_false (fun h => by cases h) fun h => h.2.1 hself
  have hlinks : r.addJoint name worldPose parent child params kind = r.link parent >>= fun p =>
      r.link child >>= fun c => .ok (⟨r.links, r.joints ++
        [.assemble ⟨r.joints.length⟩ name worldPose p c params kind], r.linkIds,
          (name, ⟨r.joints.length⟩) :: r.jointIds⟩, ⟨r.joints.length⟩) := by
    rw [addJoint, if_neg htaken, if_neg hself]
    rfl
  rw [hlinks, Except.bind_eq_ok]
  constructor
  · rintro ⟨p, hp, h⟩
    obtain ⟨c, hc, h⟩ := Except.bind_eq_ok.mp h
    cases h
    exact ⟨htaken, hself, rfl, p, c, hp, hc, rfl⟩
  · rintro ⟨-, -, rfl, p, c, hp, hc, rfl⟩
    exact ⟨p, hp, Except.bind_eq_ok.mpr ⟨c, hc, rfl⟩⟩

theorem IsSound.addJoint {name : String} {worldPose : Pose α} {parent child : LinkId}
    {params : JointSettings α} {kind : JointMotion α} {id : JointId} (hr : r.IsSound)
    (h : r.addJoint name worldPose parent child params kind = .ok (r', id)) : r'.IsSound := by
  obtain ⟨hnew, hne, rfl, p, c, hp, hc, rfl⟩ := addJoint_eq_ok_iff.mp h
  -- the joint names the links by their own ids, which are the ones that were asked for
  have hpid : p.id = parent := hr.link_id (link_eq_ok_iff.mp hp)
  have hcid : c.id = child := hr.link_id (link_eq_ok_iff.mp hc)
  have hjoint : ∀ j ∈ r.joints ++ [.assemble ⟨r.joints.length⟩ name worldPose p c params kind],
      j ∈ r.joints ∨ j.parent = parent ∧ j.child = child := fun j hj => by
    rcases List.mem_append.mp hj with hold | hlast
    · exact Or.inl hold
    · obtain rfl := List.mem_singleton.mp hlast
      exact Or.inr ⟨hpid, hcid⟩
  exact {
    link_id := hr.link_id
    joint_id := fun hget => by
      obtain hold | ⟨rfl, rfl⟩ := List.getElem?_concat_eq_some hget
      · exact hr.joint_id hold
      · rfl
    registers_links := hr.registers_links
    registers_joints := hr.registers_joints.concat JointId.index_bijective.injective hnew rfl rfl
    parent_ne_child := fun j hj => by
      obtain hold | ⟨hparent, hchild⟩ := hjoint j hj
      · exact hr.parent_ne_child j hold
      · rwa [hparent, hchild]
    exists_link := fun j hj side => by
      obtain hold | ⟨hparent, hchild⟩ := hjoint j hj
      · exact hr.exists_link j hold side
      · cases side with
        | parent => exact ⟨p, by rw [Joint.link, hparent]; exact hp⟩
        | child => exact ⟨c, by rw [Joint.link, hchild]; exact hc⟩ }

theorem keeps_addJoint {name : String} {worldPose : Pose α} {parent child : LinkId}
    {params : JointSettings α} {kind : JointMotion α} {id : JointId}
    (h : r.addJoint name worldPose parent child params kind = .ok (r', id)) : r.Keeps r' := by
  obtain ⟨hnew, -, rfl, p, c, -, -, hr'⟩ := addJoint_eq_ok_iff.mp h
  have hjoint : ∀ id j, r.joint id = .ok j → r'.joint id = .ok j := fun id j hj => by
    rw [hr', joint_eq_ok_iff]
    exact List.getElem?_append_of_eq_some (joint_eq_ok_iff.mp hj) _
  subst hr'
  exact {
    link := fun _ _ hl => hl
    joint := hjoint
    linkNamed := fun _ _ hl => hl
    jointNamed := fun n j hj => by
      obtain ⟨id, hid, hj⟩ := jointNamed_eq_ok_iff.mp hj
      exact jointNamed_eq_ok_iff.mpr ⟨id, lookup_cons_of_eq_some hnew hid _, hjoint id j hj⟩ }

/-! ### Runs -/

/-- The robots that adding links and joints leads to. -/
inductive Built : Robot α → Prop
  | empty : Built empty
  | addLink {r r' : Robot α} {name : String} {mass : α} {inertia : Mat3 α} {worldPose : Pose α}
      {id : LinkId} (hr : Built r) (h : r.addLink name mass inertia worldPose = .ok (r', id)) : Built r'
  | addJoint {r r' : Robot α} {name : String} {worldPose : Pose α} {parent child : LinkId}
      {params : JointSettings α} {kind : JointMotion α} {id : JointId} (hr : Built r)
      (h : r.addJoint name worldPose parent child params kind = .ok (r', id)) : Built r'

/-- **Every robot that is built is sound.** -/
theorem Built.isSound (hr : r.Built) : r.IsSound := by
  induction hr with
  | empty => exact isSound_empty
  | addLink _ h ih => exact ih.addLink h
  | addJoint _ h ih => exact ih.addJoint h

/-- **A joint's id is its place**, so joints of one robot have ids of their own. -/
theorem Built.joint_id (hr : r.Built) {id : JointId} {j : Joint α} (h : r.joint id = .ok j) :
    j.id = id :=
  hr.isSound.joint_id (joint_eq_ok_iff.mp h)

/-- A link or a joint to add. -/
inductive Addition (α : Type) where
  | link (name : String) (mass : α) (inertia : Mat3 α) (worldPose : Pose α)
  | joint (name : String) (worldPose : Pose α) (parent child : LinkId) (params : JointSettings α)
    (kind : JointMotion α)

/-- The robot with the addition, or why it is refused. -/
def add (r : Robot α) : Addition α → Except TopologyError (Robot α)
  | .link name mass inertia worldPose => do
    let (r', _) ← r.addLink name mass inertia worldPose
    return r'
  | .joint name worldPose parent child params kind => do
    let (r', _) ← r.addJoint name worldPose parent child params kind
    return r'

/-- The robot after the addition was tried. -/
def tryAdd (r : Robot α) (a : Addition α) : Robot α :=
  match r.add a with
  | .ok r' => r'
  | .error _ => r

/-- The robot after additions were tried one after another. -/
def tryAll (r : Robot α) (as : List (Addition α)) : Robot α := as.foldl tryAdd r

/-- An addition that is not refused builds on the robot and keeps all that is in it. -/
theorem Built.add {a : Addition α} (hr : r.Built) (h : r.add a = .ok r') : r'.Built ∧ r.Keeps r' := by
  cases a with
  | link name mass inertia worldPose =>
    obtain ⟨⟨_, id⟩, hadd, hlast⟩ := Except.bind_eq_ok.mp h
    cases hlast
    exact ⟨hr.addLink hadd, keeps_addLink hadd⟩
  | joint name worldPose parent child params kind =>
    obtain ⟨⟨_, id⟩, hadd, hlast⟩ := Except.bind_eq_ok.mp h
    cases hlast
    exact ⟨hr.addJoint hadd, keeps_addJoint hadd⟩

theorem tryAdd_of_error {a : Addition α} {e : TopologyError} (h : r.add a = .error e) :
    r.tryAdd a = r := by
  rw [tryAdd, h]

theorem tryAdd_of_ok {a : Addition α} (h : r.add a = .ok r') : r.tryAdd a = r' := by
  rw [tryAdd, h]

theorem Built.tryAdd (hr : r.Built) (a : Addition α) : (r.tryAdd a).Built := by
  cases h : r.add a with
  | error e => rwa [tryAdd_of_error h]
  | ok r' => rw [tryAdd_of_ok h]; exact (hr.add h).1

/-- Whatever additions are tried, the robot is one that is built. -/
theorem Built.tryAll (hr : r.Built) (as : List (Addition α)) : (r.tryAll as).Built := by
  induction as generalizing r with
  | nil => exact hr
  | cons a as ih => exact ih (hr.tryAdd a)

theorem tryAll_concat (r : Robot α) (as : List (Addition α)) (a : Addition α) :
    r.tryAll (as ++ [a]) = (r.tryAll as).tryAdd a := List.foldl_concat _ _ _ _

/-- **A robot stays well formed whatever is added to it.** After any additions to the empty robot,
refused ones among them, ids are places, a joint connects two different links that exist, and
all looking up keeps its promises. One more addition leaves the robot alone if it is refused,
and else changes nothing that could be looked up before. -/
theorem isWired_tryAll (as : List (Addition α)) :
    (empty.tryAll as).IsSound ∧ (empty.tryAll as).IsWired ∧ ∀ a,
      (∀ e, (empty.tryAll as).add a = .error e → empty.tryAll (as ++ [a]) = empty.tryAll as) ∧
      ∀ r', (empty.tryAll as).add a = .ok r' →
        empty.tryAll (as ++ [a]) = r' ∧ (empty.tryAll as).Keeps r' := by
  have hbuilt : (empty.tryAll as).Built := Built.empty.tryAll as
  refine ⟨hbuilt.isSound, hbuilt.isSound.isWired, fun a => ⟨fun e h => ?_, fun r' h => ?_⟩⟩
  · rw [tryAll_concat, tryAdd_of_error h]
  · rw [tryAll_concat, tryAdd_of_ok h]
    exact ⟨rfl, (hbuilt.add h).2⟩

end Robot

/-! ### An arm -/

/-- A unit link at the origin. -/
noncomputable def unitLink (index : ℕ) (name : String) : Link ℝ := ⟨⟨index⟩, name, 1, 1, .identity⟩

/-- A hinge between two of them. -/
noncomputable def unitHinge (index : ℕ) (name : String) (parent child : Link ℝ) : Joint ℝ :=
  .assemble ⟨index⟩ name .identity parent child .standard (.revolute ⟨0, 0, 1⟩)

noncomputable def shoulder : Joint ℝ := unitHinge 0 "shoulder" (unitLink 0 "base") (unitLink 1 "arm")

/-- A shoulder between two links, with a name that is taken and a joint from a link to itself
among the additions. -/
noncomputable def armAdditions : List (Robot.Addition ℝ) :=
  [.link "base" 1 1 .identity, .link "arm" 1 1 .identity, .link "base" 0.5 1 .identity,
    .joint "shoulder" .identity ⟨0⟩ ⟨1⟩ .standard (.revolute ⟨0, 0, 1⟩),
    .joint "loop" .identity ⟨1⟩ ⟨1⟩ .standard .fixed]

/-- The shoulder seen from its links. A joint to a link that is not there is refused, a hand is
not. -/
theorem isWired_arm :
    (Robot.empty.tryAll armAdditions).opposite ⟨0⟩ ⟨0⟩ = .ok ⟨1⟩ ∧
    shoulder ∈ (Robot.empty.tryAll armAdditions).jointsAt ⟨1⟩ ∧
    (Robot.empty.tryAll armAdditions).add (.joint "wrist" .identity ⟨1⟩ ⟨2⟩ .standard .fixed) =
      .error (.unknownLink ⟨2⟩) ∧
    Robot.empty.tryAll (armAdditions ++ [.joint "wrist" .identity ⟨1⟩ ⟨2⟩ .standard .fixed]) =
      Robot.empty.tryAll armAdditions ∧
    (Robot.empty.tryAll (armAdditions ++ [.link "hand" 1 1 .identity])).linkNamed "arm" =
      .ok (unitLink 1 "arm") := by
  obtain ⟨-, hwired, hadd⟩ := Robot.isWired_tryAll armAdditions
  have hrefused : (Robot.empty.tryAll armAdditions).add
      (.joint "wrist" .identity ⟨1⟩ ⟨2⟩ .standard .fixed) = .error (.unknownLink ⟨2⟩) := rfl
  obtain ⟨hhand, hkeeps⟩ := (hadd (.link "hand" 1 1 .identity)).2 _ rfl
  refine ⟨hwired.opposite_link ⟨0⟩ shoulder rfl .parent,
    (hwired.mem_jointsAt_iff _ _).mpr ⟨List.mem_singleton_self _, shoulder.touches_link .child⟩,
    hrefused, (hadd _).1 _ hrefused, ?_⟩
  rw [hhand]
  exact hkeeps.linkNamed "arm" _ rfl

end Kinodynamics
