import SchemeLayout.Layout.PolicyTable

/-!
The policies of the Scheme keywords.

The syntactic forms of R5RS and the common additions of R7RS have entries;
procedures have none and keep the standard policy.
-/

set_option autoImplicit false

namespace SchemeLayout

namespace PolicyTable

def schemeKeywords : List (String × Policy) := [
  ("define", .definition),
  ("define-syntax", .definition),
  ("define-record-type", .definition),
  ("define-values", .definition),
  ("lambda", .definition),
  ("case-lambda", .definition),
  ("let-syntax", .definition),
  ("letrec-syntax", .definition),
  ("begin", .sequence),
  ("delay", .sequence),
  ("dynamic-wind", .sequence),
  ("if", .branch),
  ("let", .binding 1),
  ("let*", .binding 1),
  ("letrec", .binding 1),
  ("letrec*", .binding 1),
  ("let-values", .binding 1),
  ("let*-values", .binding 1),
  ("fluid-let", .binding 1),
  ("parameterize", .binding 1),
  ("when", .binding 1),
  ("unless", .binding 1),
  ("case", .binding 1),
  ("guard", .binding 1),
  ("syntax-rules", .binding 1),
  ("do", .binding 2),
  ("call-with-input-file", .binding 1),
  ("call-with-output-file", .binding 1),
  ("with-input-from-file", .binding 1),
  ("with-output-to-file", .binding 1)]

def scheme : PolicyTable := empty.insertAll schemeKeywords

end PolicyTable

end SchemeLayout
