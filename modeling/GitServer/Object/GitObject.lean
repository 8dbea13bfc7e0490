import GitServer.Object.Kind

/-!
# Objects

A Git object is a kind, a content and the id it is filed under. The id of an object made
from its content is the digest of header and content (`GitObject.ofContent`); an object read
back from a medium keeps the id it was filed under.
-/

namespace GitServer

/-- An object: kind, content and id. -/
structure GitObject where
  kind : ObjectKind
  data : Bytes
  id : ObjectId
deriving DecidableEq

namespace GitObject

/-- The object with this kind and content, under the id they hash to. -/
def ofContent (kind : ObjectKind) (data : Bytes) : GitObject :=
  ⟨kind, data, ObjectId.ofObject kind data⟩

/-- The size of the content. -/
def size (o : GitObject) : Nat := o.data.length

@[simp] theorem id_ofContent (kind : ObjectKind) (data : Bytes) :
    (ofContent kind data).id = ObjectId.ofObject kind data := rfl

@[simp] theorem kind_ofContent (kind : ObjectKind) (data : Bytes) :
    (ofContent kind data).kind = kind := rfl

@[simp] theorem data_ofContent (kind : ObjectKind) (data : Bytes) :
    (ofContent kind data).data = data := rfl

end GitObject

end GitServer
