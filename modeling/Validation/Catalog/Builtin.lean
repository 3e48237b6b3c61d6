import Validation.Catalog.Basic
import Validation.Catalog.Domain
import Validation.Catalog.IdCard
import Validation.Catalog.Presence

/-!
# The standard catalog

| kind             | applies to                                    |
|------------------|-----------------------------------------------|
| `positive`       | numeric scalars and boxed scalars             |
| `min`, `max`     | numeric scalars and boxed scalars             |
| `range`          | as `min` and `max`, into which it expands     |
| `size`           | texts, arrays, collections and maps           |
| `not_null`       | all types but scalars                         |
| `not_empty`      | as `not_null` and `size`, into which it expands |
| `domain`         | numeric scalars and boxed scalars             |
| `id_card`        | texts                                         |
-/

namespace Validation.Catalog

/-- The standard kinds. -/
def builtin : Catalog :=
  ⟨[Builtin.positive, Builtin.min, Builtin.max, Builtin.range, Builtin.size, Builtin.notNull,
    Builtin.notEmpty, Builtin.domain, Builtin.idCard]⟩

end Validation.Catalog
